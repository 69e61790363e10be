import EventTally.Eval.World

/-! # Operations on values

Length, truth, iteration, indexing, slices and changes in place. Dicts and sets find their keys by
equality and hash, sequences are indexed by position, negative positions counting from the end.
-/

namespace EventTally.Heap

/-- The number of elements of a collection or of characters of a string. -/
def len? (h : Heap) : Value → Option Nat
  | .atom (.str s) => some s.length
  | .tuple elems => some elems.length
  | .list r => some (h.elems r).length
  | .dict r => some (h.entries r).length
  | .set r => some (h.members r).length
  | _ => none

def truthy (h : Heap) (v : Value) : Bool :=
  match v with
  | .atom a => a.truthy
  | v => h.len? v != some 0

/-- Whether finite values are equal. -/
def equal (h : Heap) (v w : Value) : Bool := (h.datum v).equal (h.datum w)

def hashable (h : Heap) (v : Value) : Bool := (h.datum v).hashable

/-- The test for the keys that are the same as `k`. -/
def sameKey (h : Heap) (k : Value) : Value → Bool :=
  let d := h.datum k
  fun l => d.sameKey (h.datum l)

def findEntry (h : Heap) (entries : List (Value × Value)) (k : Value) : Option Value :=
  Keyed.find? (h.sameKey k) entries

def insertEntry (h : Heap) (k : Value) (v : α) (entries : List (Value × α)) :
    Except Reason (List (Value × α)) :=
  if h.hashable k then .ok (Keyed.insert (h.sameKey k) k v entries)
  else .error (.unhashable k.kind)

def insertMember (h : Heap) (k : Value) (members : List Value) : Except Reason (List Value) :=
  if h.hashable k then .ok (Keyed.insertElem (h.sameKey k) k members)
  else .error (.unhashable k.kind)

def charStrings (s : String) : List Value := s.toList.map fun c => .str (String.singleton c)

/-- The elements that iteration gives: those of a sequence or set, the characters of a string, the
pairs of a dict. -/
def iterate (h : Heap) : Value → Except Reason (List Value)
  | .atom (.str s) => .ok (charStrings s)
  | .tuple elems => .ok elems
  | .list r => .ok (h.elems r)
  | .dict r => .ok ((h.sortEntries (h.entries r)).map fun (k, v) => .tuple [k, v])
  | .set r => .ok (h.sortMembers (h.members r))
  | v => .error (.cannotIterate v.kind)

/-- The elements of a list as code, read when they are needed. -/
def slots (h : Heap) (r : ListRef) : List Code :=
  (List.range (h.elems r).length).map (Code.slot r ·)

/-- The elements of a list as places, so that changes to the list show. -/
def places (h : Heap) (r : ListRef) : List Place :=
  (List.range (h.elems r).length).map (Place.slot r ·)

def loopPlaces (h : Heap) : Value → Except Reason (List Place)
  | .list r => .ok (h.places r)
  | v => (h.iterate v).map (·.map Place.value)

/-- The position in a sequence of length `n` that an index means. -/
def position (k : Value) (n : Nat) : Except Reason Nat :=
  match k with
  | .atom (.int i) =>
    let p := if i.toInt < 0 then i.toInt + n else i.toInt
    if p < 0 || (n : Int) ≤ p then
      .error (.outOfRange "index" (-(n : Int)) ((n : Int) - 1) (toString i.toInt))
    else .ok p.toNat
  | k => .error (.badValue "index" "integer" k.kind)

def elemAt (elems : List Value) (k : Value) : Except Reason Value := do
  let i ← position k elems.length
  return elems[i]?.getD .null

/-- The element of a dict under a key or of a sequence at a position. -/
def index (h : Heap) (v k : Value) : Except Reason Value :=
  match v with
  | .dict r =>
    match h.findEntry (h.entries r) k with
    | some v => .ok v
    | none => .error (.noSuchKey (h.datum k))
  | .list r => elemAt (h.elems r) k
  | .tuple elems => elemAt elems k
  | .atom (.str s) => elemAt (charStrings s) k
  | v => .error (.badValue "indexee" "dict, list, tuple or string" v.kind)

/-- Whether a dict has a key, or a sequence a position, which must not be negative. -/
def hasIndex (h : Heap) (v k : Value) : Bool :=
  match v with
  | .dict r => (h.findEntry (h.entries r) k).isSome
  | .list _ | .tuple _ | .atom (.str _) =>
    match k, h.len? v with
    | .atom (.int i), some n => 0 ≤ i.toInt && i.toInt < n
    | _, _ => false
  | _ => false

def put (h : Heap) (v k elem : Value) : Except Reason Heap :=
  match v with
  | .dict r => (h.insertEntry k elem (h.entries r)).map (h.setEntries r ·)
  | .list r => (position k (h.elems r).length).map fun i => h.setSlot r i elem
  | v => .error (.badValue "container" "dict or list" v.kind)

/-- Removes an element of a dict or list in place and gives it. -/
def remove (h : Heap) (v k : Value) : Except Reason (Value × Heap) :=
  match v with
  | .dict r =>
    let entries := h.entries r
    match h.findEntry entries k with
    | some v => .ok (v, h.setEntries r (Keyed.erase (h.sameKey k) entries))
    | none => .error (.noSuchKey (h.datum k))
  | .list r => do
    let i ← position k (h.elems r).length
    return (h.slot r i, h.removeSlot r i)
  | v => .error (.badValue "container" "dict or list" v.kind)

end EventTally.Heap

namespace EventTally.Slice

def int64Max : Int := 9223372036854775807

/-- A bound of a slice of `n` elements: negative bounds count from the end, and bounds outside
of the sequence are moved to its nearest end. -/
def clamp (i : Int) (n : Nat) (step : Int) : Int :=
  let i := if i < 0 then i + n else i
  if 0 < step then (if i < 0 then 0 else if (n : Int) < i then n else i)
  else if i < 0 then -1
  else if (n : Int) ≤ i then (n : Int) - 1
  else i

/-- The positions from `i` on in steps that lie before `stop`. None if a position does not fit 64
bits, because it would wrap around to one outside of the sequence. -/
def positions (stop step : Int) : Nat → Int → Option (List Nat)
  | 0, _ => some []
  | fuel + 1, i =>
    if (0 < step && i < stop) || (step < 0 && stop < i) then
      if int64Max < i + step then none
      else (positions stop step fuel (i + step)).map (i.toNat :: ·)
    else some []

def bound? : Value → Except Reason (Option Int)
  | .atom .null => .ok none
  | .atom (.int i) => .ok (some i.toInt)
  | v => .error (.badValue "slice index" "integer or null" v.kind)

/-- The positions that start, stop and step select of `n` elements. -/
def select (n : Nat) (start stop step : Value) : Except Fault (List Nat) :=
  let bad : Reason → Fault := fun r => .raised { reason := r, trace := [] }
  match bound? step with
  | .error r => .error (bad r)
  | .ok (some 0) => .error (bad .zeroStep)
  | .ok step =>
    let step := step.getD 1
    match bound? start, bound? stop with
    | .error r, _ => .error (bad r)
    | _, .error r => .error (bad r)
    | .ok start, .ok stop =>
      let first := start.elim (if 0 < step then 0 else (n : Int) - 1) (clamp · n step)
      let last := stop.elim (if 0 < step then (n : Int) else -1) (clamp · n step)
      match positions last step (n + 1) first with
      | some ps => .ok ps
      | none => .error .crashed

def pick (elems : List α) (ps : List Nat) : List α := ps.filterMap (elems[·]?)

end EventTally.Slice

namespace EventTally.EvalM

/-- The elements of a sequence or string that a slice selects, as a value of the same kind. -/
def slice (v start stop step : Value) : EvalM Value := do
  match v with
  | .list r =>
    let elems := (← heap).elems r
    newList (Slice.pick elems (← liftExcept (Slice.select elems.length start stop step)))
  | .tuple elems =>
    return .tuple (Slice.pick elems (← liftExcept (Slice.select elems.length start stop step)))
  | .atom (.str s) =>
    let cs := s.toList
    let ps ← liftExcept (Slice.select cs.length start stop step)
    return .str (String.ofList (Slice.pick cs ps))
  | v => fail (.badValue "sliced value" "list, tuple or string" v.kind)
where
  /-- Passes a fault on. -/
  liftExcept {α : Type} : Except Fault α → EvalM α
    | .ok a => pure a
    | .error f => throw f

end EventTally.EvalM
