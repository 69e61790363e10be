import EventTally.Eval.Recursor

/-! # Builtins that stop early

Comparisons, logical connectives, membership and type tests evaluate their arguments one at a time
and none after the one that decides.
-/

namespace EventTally

def TypeTest.holds : TypeTest → Value → Bool
  | .null, .atom .null => true
  | .int, .atom (.int _) => true
  | .float, .atom (.float _) => true
  | .bool, .atom (.bool _) => true
  | .str, .atom (.str _) => true
  | .list, .list _ => true
  | .dict, .dict _ => true
  | .tuple, .tuple _ => true
  | .set, .set _ => true
  | .kw, .atom (.sym _) => true
  | .func, .closure _ => true
  | _, _ => false

namespace EvalM

/-- Whether each next argument stands in the relation to the one before it, `left`. -/
def chain (r : Recursor) (s : ScopeRef) (rel : Relation) (left : Value) : List Code → EvalM Bool
  | [] => pure true
  | c :: cs => do
    let right ← r.eval c s
    let holds ← ofOption ((← heap).relate? rel left right)
    if ← ofExcept holds then chain r s rel right cs else return false

def callRelation (r : Recursor) (rel : Relation) (args : List Code) (s : ScopeRef) :
    EvalM Value := do
  checkArity args 1 (-1)
  match args with
  | [] => return .bool true
  | c :: cs =>
    let left ← r.eval c s
    return .bool (← chain r s rel left cs)

/-- Whether some argument has the truth value `stop`; the first one ends the search. -/
def evalUntil (r : Recursor) (s : ScopeRef) (stop : Bool) : List Code → EvalM Bool
  | [] => pure false
  | c :: cs => do
    let v ← r.eval c s
    if (← heap).truthy v = stop then return true else evalUntil r s stop cs

/-- Whether all arguments pass a type test; the first that does not ends the search. -/
def allPass (r : Recursor) (s : ScopeRef) (t : TypeTest) : List Code → EvalM Bool
  | [] => pure true
  | c :: cs => do
    let v ← r.eval c s
    if t.holds v then allPass r s t cs else return false

def occursIn (part : List Char) : List Char → Bool
  | [] => part.isEmpty
  | c :: cs => part.isPrefixOf (c :: cs) || occursIn part cs

/-- Whether a collection has an element, a dict a key, a string a part; none if comparing elements has
no end. -/
def contains (h : Heap) (col elem : Value) : Option (Except Reason Bool) :=
  match col with
  | .dict r => some (.ok (h.findEntry (h.entries r) elem).isSome)
  | .set r => some (.ok ((h.members r).any (h.sameKey elem)))
  | .atom (.str s) =>
    match elem with
    | .atom (.str t) => some (.ok (occursIn t.toList s.toList))
    | elem => some (.error (.badValue "element to find in string" "string" elem.kind))
  | col =>
    match h.iterate col with
    | .ok elems => (elems.anyM fun v => h.equal? v elem).map .ok
    | .error r => some (.error r)

/-- Whether a collection has every argument; the first that is missing ends the search. -/
def containsAll (r : Recursor) (s : ScopeRef) (col : Value) : List Code → EvalM Bool
  | [] => pure true
  | c :: cs => do
    let elem ← r.eval c s
    let found ← ofOption (contains (← heap) col elem)
    if ← ofExcept found then containsAll r s col cs else return false

def callContains (r : Recursor) (args : List Code) (s : ScopeRef) : EvalM Value := do
  checkArity args 1 (-1)
  match args with
  | [] => return .bool true
  | c :: cs =>
    let col ← r.eval c s
    return .bool (← containsAll r s col cs)

end EvalM

end EventTally
