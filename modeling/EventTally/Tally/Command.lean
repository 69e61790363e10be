import EventTally.Machine.Database
import EventTally.Program.Basic
import EventTally.Tally.Feed
import EventTally.Tally.RuleFile

/-! # The commands on tallies

Feeding events to the tallies of a rule file, and showing their accumulators.
-/

namespace EventTally.TallyCommand

open CommandLine

def fail (message : String) : ExceptT Failure MachineM α := throw (.error message)

def readRules (path : String) : ExceptT Failure MachineM (List Rule) := do
  match (← get).files.read path with
  | .error f =>
    if f.operation = "read" then fail (path ++ ": yaml: input error: " ++ f.message)
    else fail f.message
  | .ok (.text text) =>
    match RuleFile.read text with
    | .ok rules => return rules
    | .error f => fail (path ++ ": " ++ f.message)
  | .ok _ => fail (path ++ ": yaml: invalid leading UTF-8 octet")

/-- Reads the rules, opens the database and makes the tallies. -/
def setup (flags : Flags) : ExceptT Failure MachineM (String × Runner) := do
  let rules ← readRules (flags.args.headD "")
  match ← Database.openAt flags.db with
  | .error f => fail ("cannot open database: " ++ f.message)
  | .ok (path, store) =>
    match Runner.start rules { World.initial with store } with
    | .error f => fail f.message
    | .ok runner => return (path, runner)

/-- The text of the events: a file or the standard input. A directory has none. -/
def eventText : List String → ExceptT Failure MachineM (Except FileFault String)
  | _ :: path :: _ => do
    match (← get).files.read path with
    | .ok (.text text) => return .ok text
    | .ok _ => return .ok ""
    | .error f => if f.operation = "read" then return .error f else fail f.message
  | _ => do return .ok (← get).input.text

def summary (events skipped : Nat) : String :=
  toString events ++ " events, " ++ toString skipped ++ " skipped\n"

def feed (flags : Flags) : ExceptT Failure MachineM Unit := do
  let (path, runner) ← setup flags
  match ← eventText flags.args with
  | .error f =>
    MachineM.writeErr (summary 0 0)
    fail f.message
  | .ok text =>
    let (report, runner) := runner.feed false text.toList
    MachineM.log report.log
    Database.save path runner.world.store
    match report.fault with
    | some .crashed => fail FeedFault.crashed.message
    | some f =>
      MachineM.writeErr (summary report.events report.skipped)
      fail f.message
    | none => MachineM.writeErr (summary report.events report.skipped)

def showLines (h : Heap) :
    List (Tally × Except Tally.Fault Value) → ExceptT Failure MachineM Unit
  | [] => pure ()
  | (t, .ok v) :: rest => do
    match h.datum? v with
    | some d =>
      MachineM.writeOut (t.name ++ ": " ++ d.plain ++ "\n")
      showLines h rest
    | none => fail FeedFault.crashed.message
  | (_, .error f) :: _ => fail f.message

def encodeAll (h : Heap) :
    List (Tally × Except Tally.Fault Value) → ExceptT Failure MachineM (List (String × Json))
  | [] => pure []
  | (t, .ok v) :: rest => do
    match h.encode? v with
    | some (.ok j) => return (t.name, j) :: (← encodeAll h rest)
    | some (.error r) => fail r.message
    | none => fail FeedFault.crashed.message
  | (_, .error f) :: _ => fail f.message

def showAll (flags : Flags) : ExceptT Failure MachineM Unit := do
  let (_, runner) ← setup flags
  let (results, after) := runner.accumulators
  let accumulators := (after.tallies.map (·.1)).zip results
  if flags.json then
    let fields ← encodeAll after.world.heap accumulators
    MachineM.writeOut ((Json.obj (fields.mergeSort (·.1 ≤ ·.1))).text ++ "\n")
  else showLines after.world.heap accumulators

def program : Program := fun flags =>
  match flags.command with
  | some .feed => feed flags
  | some .show => showAll flags
  | _ => throw .notSuitable

end EventTally.TallyCommand
