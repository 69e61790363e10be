import EventTally.Codec
import EventTally.Eval.Collection

/-! # Values that contain themselves

Finite values are compared and encoded as data. With a value that reaches itself the work goes from
object to object. It ends if a difference shows, or something that has no order or no encoding, before
the same objects come round again; otherwise it has no end.
-/

namespace EventTally

namespace Value

mutual

/-- Whether values are equal. Objects are compared by `same`, none standing for a comparison without
end. -/
def equalBy (same : Ref → Ref → Option Bool) : Value → Value → Option Bool
  | .tuple vs, .tuple ws => if vs.length = ws.length then equalAllBy same vs ws else some false
  | .list a, .list b => same (.list a) (.list b)
  | .dict a, .dict b => same (.dict a) (.dict b)
  | .set a, .set b => same (.set a) (.set b)
  | v, w => some (v.key.equal w.key)

/-- Compares as many elements as both have, up to the first that are not equal. -/
def equalAllBy (same : Ref → Ref → Option Bool) : List Value → List Value → Option Bool
  | v :: vs, w :: ws => do
    if ← equalBy same v w then equalAllBy same vs ws else some false
  | _, _ => some true

end

variable (same : Ref → Ref → Option Bool)
  (order : ListRef → ListRef → Option (Except Datum.Incomparable Ordering))

mutual

/-- How values are ordered, by the first elements that are not equal. -/
def orderBy : Value → Value → Option (Except Datum.Incomparable Ordering)
  | .tuple vs, .tuple ws => orderAllBy vs ws
  | .list a, .list b => order a b
  | v, w => some (v.key.order w.key)

def orderAllBy : List Value → List Value → Option (Except Datum.Incomparable Ordering)
  | v :: vs, w :: ws => do
    if ← equalBy same v w then orderAllBy vs ws else orderBy v w
  | vs, ws => some (.ok (compare vs.length ws.length))

end

mutual

/-- Whether a value has an encoding, up to the first part that has none. -/
def encodableBy (ask : Ref → Option (Except Reason Unit)) : Value → Option (Except Reason Unit)
  | .tuple vs => allEncodableBy ask vs
  | .list r => ask (.list r)
  | .dict r => ask (.dict r)
  | .set r => ask (.set r)
  | v => some ((Codec.encode v.key).map fun _ => ())

def allEncodableBy (ask : Ref → Option (Except Reason Unit)) :
    List Value → Option (Except Reason Unit)
  | [] => some (.ok ())
  | v :: vs => do
    match ← encodableBy ask v with
    | .ok _ => allEncodableBy ask vs
    | .error r => some (.error r)

end

end Value

/-- Whether an ordering satisfies one of the four order relations. -/
def Relation.accepts : Relation → Ordering → Bool
  | .lt, o => o == .lt
  | .le, o => o != .gt
  | .gt, o => o == .gt
  | .ge, o => o != .lt
  | .eq, o => o == .eq
  | .ne, o => o != .eq

namespace Heap

/-- How many references are followed into values that contain themselves. -/
def maxWalk : Nat := 1000000

def equalRefs (h : Heap) : Nat → Ref → Ref → Option Bool
  | 0, _, _ => none
  | depth + 1, .list a, .list b =>
    (Value.tuple (h.elems a)).equalBy (h.equalRefs depth) (.tuple (h.elems b))
  | depth + 1, .dict a, .dict b =>
    if (h.entries a).length = (h.entries b).length then
      (h.sortEntries (h.entries a)).allM fun (k, v) =>
        match h.findEntry (h.entries b) k with
        | some w => v.equalBy (h.equalRefs depth) w
        | none => some false
    else some false
  | _ + 1, .set a, .set b =>
    some ((h.members a).length == (h.members b).length &&
      (h.members a).all fun v => (h.members b).any (h.sameKey v))
  | _ + 1, _, _ => some false

def orderLists (h : Heap) : Nat → ListRef → ListRef → Option (Except Datum.Incomparable Ordering)
  | 0, _, _ => none
  | depth + 1, a, b =>
    Value.orderAllBy (h.equalRefs depth) (h.orderLists depth) (h.elems a) (h.elems b)

def contents (h : Heap) : Ref → List Value
  | .list r => h.elems r
  | .dict r => (h.sortEntries (h.entries r)).flatMap fun (k, v) => [k, v]
  | .set r => h.sortMembers (h.members r)
  | .closure _ => []

def encodableRef (h : Heap) : Nat → Ref → Option (Except Reason Unit)
  | 0, _ => none
  | depth + 1, r => Value.allEncodableBy (h.encodableRef depth) (h.contents r)

/-- Whether values are equal, none if comparing them has no end. -/
def equal? (h : Heap) (v w : Value) : Option Bool :=
  if h.isFinite v && h.isFinite w then some (h.equal v w)
  else v.equalBy (h.equalRefs maxWalk) w

/-- How values are ordered, none if comparing them has no end. -/
def order? (h : Heap) (v w : Value) : Option (Except Datum.Incomparable Ordering) :=
  if h.isFinite v && h.isFinite w then some ((h.datum v).order (h.datum w))
  else v.orderBy (h.equalRefs maxWalk) (h.orderLists maxWalk) w

/-- Whether values satisfy a relation, none if comparing them has no end. -/
def relate? (h : Heap) (rel : Relation) (v w : Value) : Option (Except Reason Bool) :=
  match rel with
  | .eq => (h.equal? v w).map .ok
  | .ne => (h.equal? v w).map fun same => .ok !same
  | rel => (h.order? v w).map fun
    | .ok o => .ok (rel.accepts o)
    | .error e => .error (.incomparable e.left e.right)

/-- The encoding of a value, none if looking for a part that has none does not end. -/
def encode? (h : Heap) (v : Value) : Option (Except Reason Json) :=
  if h.isFinite v then some (Codec.encode (h.datum v))
  else
    match v.encodableBy (h.encodableRef maxWalk) with
    | some (.error r) => some (.error r)
    | _ => none

end Heap

end EventTally
