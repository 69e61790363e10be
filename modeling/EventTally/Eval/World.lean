import EventTally.Scope
import EventTally.Store.Basic

/-! # Evaluations

An evaluation works on a world: the heap, the journal of a host's probes, and the store. It ends
with a result, or with a fault: an exception that names its reason and the calls that were active,
a position that lies outside of a sequence after an overflow, or too little fuel. A fault keeps all
changes made before it.
-/

namespace EventTally

structure World where
  heap : Heap
  /-- What probes noted, last first. -/
  journal : List String
  store : Store
  deriving Inhabited

namespace World

def initial : World := { heap := .initial, journal := [], store := .empty }

end World

/-- Why an evaluation failed and in which calls, outermost first. -/
structure Exception where
  reason : Reason
  trace : List String
  deriving Inhabited

namespace Exception

/-- The calls and the reason. -/
def text (e : Exception) : String :=
  if e.trace.isEmpty then e.reason.message
  else " > ".intercalate e.trace ++ ": " ++ e.reason.message

def render (e : Exception) (indent : String) : String :=
  "Exception: \x1b[31;1m" ++ e.reason.message ++ "\x1b[m"
    ++ (if e.trace.isEmpty then "" else "\n" ++ indent ++ "  in " ++ " > ".intercalate e.trace)

end Exception

inductive Fault where
  | raised (e : Exception)
  /-- A position outside of a sequence. -/
  | crashed
  /-- The fuel did not last. -/
  | exhausted
  deriving Inhabited

def Fault.summary : Fault → String
  | .raised e => e.text
  | .crashed => "position out of range"
  | .exhausted => "nesting too deep"

abbrev EvalM := ExceptT Fault (StateM World)

namespace EvalM

def fail (r : Reason) : EvalM α := throw (.raised { reason := r, trace := [] })

def ofExcept : Except Reason α → EvalM α
  | .ok a => pure a
  | .error r => fail r

def heap : EvalM Heap := do return (← get).heap

def modifyHeap (f : Heap → Heap) : EvalM Unit := modify fun w => { w with heap := f w.heap }

def allocate (make : Heap → ρ × Heap) : EvalM ρ :=
  modifyGet fun w =>
    let { heap, journal, store } := w
    let (r, heap) := make heap
    (r, { heap, journal, store })

/-- Adds a call to the trace of exceptions that come out of a computation. -/
def withFrame (name : String) (act : EvalM α) : EvalM α :=
  tryCatch act fun
    | .raised e => throw (.raised { e with trace := name :: e.trace })
    | fault => throw fault

def ofOption : Option α → EvalM α
  | some a => pure a
  | none => throw .exhausted

/-- The value as a whole, as it is now, unless it has no end. -/
def datum (v : Value) : EvalM Datum := do ofOption ((← heap).datum? v)

def newList (elems : List Value) : EvalM Value := do
  return .list (← allocate (·.newList elems))

def newDict (entries : List (Value × Value)) : EvalM Value := do
  return .dict (← allocate (·.newDict entries))

def newSet (members : List Value) : EvalM Value := do
  return .set (← allocate (·.newSet members))

def newScope (base : ScopeRef) : EvalM ScopeRef := allocate (·.child base)

def bindName (s : ScopeRef) (name : String) (v : Value) : EvalM Unit :=
  modifyHeap (·.bind s name v)

def thaw (d : Datum) : EvalM Value := allocate (·.thaw d)

def note (text : String) : EvalM Unit := modify fun w => { w with journal := text :: w.journal }

end EvalM

end EventTally
