import EventTally.Json
import EventTally.Program.Basic

/-! # The version -/

namespace EventTally.Version

def version : String := "0.1.0-dev.unknown"

def json (compiler : String) : Json :=
  .obj [("version", .str version), ("goversion", .str compiler), ("reproducible", .bool false)]

def program : Program := fun flags => do
  if !flags.version then throw .notSuitable
  let compiler := (← get).compiler
  if flags.json then MachineM.writeOut ((json compiler).text ++ "\n")
  else MachineM.writeOut (version ++ "\nGo version: " ++ compiler ++ "\n")

end EventTally.Version
