import EventTally.Eval.Comparison

/-! # Parts shared by the builtins

Builtins get their arguments as code and evaluate them as they need, through a recursor: the
evaluator, the matcher of patterns and the copier of quoted code with the fuel that is left.
-/

namespace EventTally

structure Recursor where
  eval : Code → ScopeRef → EvalM Value
  /-- Matches the value at a place against a pattern and binds the names in it. -/
  bind : Code → Place → ScopeRef → EvalM Unit
  /-- Copies quoted code, evaluating what is unquoted. -/
  quote : Code → ScopeRef → EvalM Value

namespace EvalM

def resolve : Code → EvalM Code
  | .slot r i => do return .value ((← heap).slot r i)
  | c => pure c

def resolveAll : List Code → EvalM (List Code)
  | [] => pure []
  | c :: cs => do
    let c ← resolve c
    return c :: (← resolveAll cs)

/-- The elements of a form, be it source code or a run-time list. -/
def formOf? (c : Code) : EvalM (Option (List Code)) := do
  match ← resolve c with
  | .form elems => return some elems
  | .value (.list r) => return some ((← heap).slots r)
  | _ => return none

def symbolOf? (c : Code) : EvalM (Option String) := do
  match ← resolve c with
  | .value (.atom (.sym name)) => return some name
  | _ => return none

def headOf? : List Code → EvalM (Option String)
  | [] => pure none
  | c :: _ => symbolOf? c

/-- The elements of a form that starts with the symbol `tag`, without that symbol. -/
def taggedForm? (tag : String) (c : Code) : EvalM (Option (List Code)) := do
  match ← formOf? c with
  | some elems => return if (← headOf? elems) = some tag then some (elems.drop 1) else none
  | none => return none

def codeDatum (c : Code) : EvalM Datum := do ofOption ((← heap).codeDatum? c)

def read (p : Place) : EvalM Value := do return (← heap).read p

/-- Requires at least `low` arguments, and at most `high` if that is not negative. -/
def checkArity (args : List Code) (low high : Int) : EvalM Unit :=
  let n : Int := args.length
  if n < low || (0 ≤ high && high < n) then fail (.arity "arguments" low high n) else pure ()

def evalAll (r : Recursor) (s : ScopeRef) : List Code → EvalM (List Value)
  | [] => pure []
  | c :: cs => do
    let v ← r.eval c s
    return v :: (← evalAll r s cs)

def bodyOf : List Code → Code
  | [c] => c
  | cs => .form (.sym "do" :: cs)

end EvalM

end EventTally
