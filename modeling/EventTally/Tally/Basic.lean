import EventTally.Eval.Evaluate
import EventTally.Tally.Event
import EventTally.Tally.Rule

/-! # Tallies

A tally is a rule whose code has been parsed. Its pieces of code run in a scope over that of its
host, in which its base has been evaluated once. A run of a piece that fails names the rule and
the field.
-/

namespace EventTally

structure Tally where
  name : String
  code : RuleField → Code
  /-- Whether there is one accumulator for each group. -/
  grouped : Bool
  /-- The scope under that of the base. -/
  host : ScopeRef

namespace Tally

structure CompileFault where
  rule : String
  field : RuleField
  error : ParseError
  deriving Inhabited

def CompileFault.message (f : CompileFault) : String :=
  "rule " ++ f.rule ++ ": " ++ f.field.name ++ ": " ++ f.error.text

def compileField (r : Rule) (f : RuleField) : Except CompileFault Code :=
  if r.code f = "" then .ok (.value .null)
  else
    match Source.parse? { name := "[" ++ r.name ++ "." ++ f.name ++ "]", code := r.code f } with
    | .error error => .error { rule := r.name, field := f, error }
    | .ok es => .ok (EvalM.bodyOfExprs es)

def compile (r : Rule) (host : ScopeRef) : Except CompileFault Tally := do
  let base ← compileField r .base
  let getTally ← compileField r .getTally
  let getValue ← compileField r .getValue
  let filterValue ← compileField r .filterValue
  let handleChange ← compileField r .handleChange
  let getGroup ← compileField r .getGroup
  return {
    name := r.name
    grouped := r.code .getGroup != ""
    host
    code := fun
      | .base => base
      | .getTally => getTally
      | .getValue => getValue
      | .filterValue => filterValue
      | .handleChange => handleChange
      | .getGroup => getGroup }

def compileAll (rs : List Rule) (host : ScopeRef) : Except CompileFault (List Tally) :=
  rs.mapM fun r => compile r host

inductive Cause where
  /-- Its evaluation failed. -/
  | evaluation (e : Exception)
  /-- Its result cannot be used. -/
  | result (r : Reason)
  deriving Inhabited

inductive Fault where
  | field (rule : String) (field : RuleField) (cause : Cause)
  /-- A record has a number that cannot be represented. -/
  | record (r : Reason)
  /-- The store refuses to read or write an accumulator. -/
  | store (r : Reason)
  /-- An evaluation crashed or came to no end, and the process with it. -/
  | crashed
  deriving Inhabited

def Cause.message : Cause → String
  | .evaluation e => e.text
  | .result r => r.message

def Fault.message : Fault → String
  | .field rule f cause => "rule " ++ rule ++ ": " ++ f.name ++ ": " ++ cause.message
  | .record r | .store r => r.message
  | .crashed => "panic"

/-- What a tally works on: the world, and its scope once its base has been evaluated. -/
structure Bench where
  scope : Option ScopeRef
  world : World
  deriving Inhabited

abbrev RunM := ExceptT Fault (StateM Bench)

/-- What the fault of an evaluation for a field means: an exception is a failure of the rule. -/
def faultIn (t : Tally) (f : RuleField) : EventTally.Fault → Fault
  | .raised e => .field t.name f (.evaluation e)
  | .crashed | .exhausted => .crashed

def evaluating (t : Tally) (f : RuleField) (act : EvalM α) : RunM α := fun b =>
  match act.run b.world with
  | (.ok a, world) => (.ok a, { b with world })
  | (.error e, world) => (.error (t.faultIn f e), { b with world })

def reject (t : Tally) (f : RuleField) (r : Reason) : RunM α :=
  throw (.field t.name f (.result r))

/-- The scope of the tally. The base is evaluated until it succeeds once. -/
def baseScope (t : Tally) : RunM ScopeRef := do
  match (← get).scope with
  | some s => return s
  | none =>
    let s ← t.evaluating .base do
      let s ← EvalM.newScope t.host
      let _ ← EvalM.eval (t.code .base) s
      return s
    modify fun b => { b with scope := some s }
    return s

/-- Evaluates a field with names bound in a new scope. -/
def run (t : Tally) (f : RuleField) (bindings : List (String × Value)) : RunM Value := do
  let base ← t.baseScope
  t.evaluating f do
    let s ← EvalM.newScope base
    EvalM.modifyHeap (·.bindAll s bindings)
    EvalM.eval (t.code f) s

def heap : RunM Heap := do return (← get).world.heap

def allocate (make : Heap → α × Heap) : RunM α :=
  modifyGet fun b =>
    let (a, heap) := make b.world.heap
    (a, { b with world := { b.world with heap } })

end Tally

end EventTally
