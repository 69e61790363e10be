import EventTally.Eval.Recursor

/-! # Builtins on values

The builtins that work on the values of all their arguments: arithmetic, constructors, lengths,
slices, concatenations and strings.
-/

namespace EventTally

def Value.toFloat? : Value → Except Reason Float
  | .atom (.int i) => .ok (Decimal.ofInt64 i)
  | .atom (.float f) => .ok f
  | v => .error (.badValue "operand" "number" v.kind)

namespace Arith

def onInts : Arith → Int64 → Int64 → Option Int64
  | .add, a, b => some (a + b)
  | .sub, a, b => some (a - b)
  | .mul, a, b => some (a * b)
  | .div, _, _ => none

def onFloats : Arith → Float → Float → Except Reason Float
  | .add, a, b => .ok (a + b)
  | .sub, a, b => .ok (a - b)
  | .mul, a, b => .ok (a * b)
  | .div, a, b => if b == 0 then .error .divisionByZero else .ok (a / b)

/-- Two integers give an integer, which wraps around, except in a division; all else is computed
in doubles. -/
def apply (op : Arith) (a b : Value) : Except Reason Value :=
  let inFloats : Except Reason Value := do
    let x ← a.toFloat?
    let y ← b.toFloat?
    return .float (← op.onFloats x y)
  match a, b with
  | .atom (.int i), .atom (.int j) =>
    match op.onInts i j with
    | some k => .ok (.int k)
    | none => inFloats
  | _, _ => inFloats

/-- Combines all arguments from left to right; sums and products start from their unit. -/
def fold (op : Arith) (args : List Value) : Except Reason Value :=
  match op, args with
  | .add, args => args.foldlM op.apply (.int 0)
  | .mul, args => args.foldlM op.apply (.int 1)
  | _, [] => .ok .null
  | _, first :: rest => rest.foldlM op.apply first

end Arith

namespace StrictOp

/-- The smallest and largest number of arguments; -1 for no bound. -/
def arity : StrictOp → Int × Int
  | .arith .sub | .arith .div => (1, -1)
  | .slice => (2, 4)
  | .split => (2, 2)
  | _ => (0, -1)

end StrictOp

namespace EvalM

def collect : List Value → EvalM (List Value)
  | [] => pure []
  | v :: vs => do
    let elems ← ofExcept ((← heap).iterate v)
    return elems ++ (← collect vs)

def makeSet (elems : List Value) : EvalM Value := do
  let h ← heap
  newSet (← ofExcept (elems.foldlM (fun acc v => h.insertMember v acc) []))

def pairOf (v : Value) : EvalM (Value × Value) := do
  match (← heap).iterate v with
  | .ok [k, w] => return (k, w)
  | _ => fail (.badValue "element of dict" "key-value pair" (← datum v).plain)

def makeDict (elems : List Value) : EvalM Value := collect [] elems
where
  /-- Adds the remaining pairs to the entries. -/
  collect (acc : List (Value × Value)) : List Value → EvalM Value
    | [] => newDict acc
    | v :: vs => do
      let (k, w) ← pairOf v
      collect (← ofExcept ((← heap).insertEntry k w acc)) vs

def totalLength (vs : List Value) : EvalM Value := do
  let h ← heap
  let total ← ofExcept (vs.foldlM (fun (acc : Int64) v =>
    match h.len? v with
    | some n => .ok (acc + Int64.ofNat n)
    | none => .error (.badValue "argument" "string or collection" v.kind)) 0)
  return .int total

def concat (vs : List Value) : EvalM String := do
  let h ← heap
  return String.join ((← ofOption (vs.mapM h.datum?)).map Datum.display)

/-- Slice bounds are integers or null; `i` counts the arguments. -/
def checkBounds (i : Nat) : List Value → EvalM Unit
  | [] => pure ()
  | .atom (.int _) :: vs => checkBounds (i + 1) vs
  | .atom .null :: vs => checkBounds (i + 1) vs
  | v :: _ => fail (.badValue ("argument " ++ toString i) "integer or null" v.kind)

def sliceArgs : List Value → EvalM Value
  | v :: bounds => do
    checkBounds 1 bounds
    match bounds with
    | [stop] => slice v .null stop .null
    | [start, stop] => slice v start stop .null
    | start :: stop :: step :: _ => slice v start stop step
    | [] => return .null
  | [] => return .null

/-- The pieces of `s` between occurrences of `sep`, which is not empty. -/
def pieces (s sep : String) : List String := s.splitOn sep

def splitArgs : List Value → EvalM Value
  | [.atom (.str s), .atom (.str sep)] =>
    if sep = "" then fail .emptySeparator else newList ((pieces s sep).map .str)
  | [.atom (.str _), sep] => fail (.badValue "separator" "string" sep.kind)
  | v :: _ => fail (.badValue "string to split" "string" v.kind)
  | [] => return .null

def applyStrict (op : StrictOp) (args : List Value) : EvalM Value := do
  match op with
  | .arith op => ofExcept (op.fold args)
  | .list => newList args
  | .tuple => return .tuple args
  | .set => makeSet args
  | .len => totalLength args
  | .slice => sliceArgs args
  | .cat | .intoList => newList (← collect args)
  | .intoTuple => return .tuple (← collect args)
  | .intoDict => makeDict (← collect args)
  | .intoSet => makeSet (← collect args)
  | .str => return .str (← concat args)
  | .kw => return .sym (← concat args)
  | .split => splitArgs args

/-- Checks the number of arguments, evaluates them and applies the builtin. -/
def callStrict (r : Recursor) (op : StrictOp) (args : List Code) (s : ScopeRef) : EvalM Value := do
  checkArity args op.arity.1 op.arity.2
  applyStrict op (← evalAll r s args)

end EvalM

end EventTally
