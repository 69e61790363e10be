import EventTally.Machine.Basic

/-! # Where the database is

The database is in the file that the command line names, else in the one that an environment
variable names, else in the directory for the state of programs.
-/

namespace EventTally

inductive DatabaseFault where
  | noHome
  | file (f : FileFault)
  deriving DecidableEq, Repr, Inhabited

def DatabaseFault.message : DatabaseFault → String
  | .noHome => "$HOME is not defined"
  | .file f => f.message

namespace Database

def defaultPath : MachineM (Except DatabaseFault String) := do
  let named ← MachineM.setting "TALLY_DB"
  let state ← MachineM.setting "XDG_STATE_HOME"
  let home ← MachineM.setting "HOME"
  if named != "" then return .ok named
  else if state != "" then return .ok (Path.join [state, "tally", "db.bolt"])
  else if home != "" then return .ok (Path.join [home, ".local", "state", "tally", "db.bolt"])
  else return .error .noHome

def openAt (path : String) : MachineM (Except DatabaseFault (String × Store)) := do
  let found ← if path != "" then pure (.ok path) else defaultPath
  match found with
  | .error f => return .error f
  | .ok path =>
    match (← get).files.openStore path with
    | .error f => return .error (.file f)
    | .ok (store, files) =>
      modify fun m => { m with files }
      MachineM.log [{ topic := "store", message := "initializing store" },
        { topic := "store", message := "initialized store" }]
      return .ok (path, store)

def save (path : String) (store : Store) : MachineM Unit :=
  modify fun m =>
    match m.files.write path (.database store) with
    | .ok files => { m with files }
    | .error _ => m

end Database

end EventTally
