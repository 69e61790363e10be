import EventTally.Builtin
import EventTally.Datum.Basic
import EventTally.Keyed

/-! # Values and the heap

At run time lists, dicts, sets, functions and scopes have an identity and live in a heap; values
refer to them. Code that runs is parsed source, which nothing can change, or a run-time list, whose
elements are looked up when they are needed.

A list keeps the slots it was made with: removing an element moves the later ones down and makes
the list shorter, but a loop that has started on the slots still sees all of them.
-/

namespace EventTally

structure ListRef where
  id : Nat
  deriving DecidableEq, Repr, Inhabited

structure DictRef where
  id : Nat
  deriving DecidableEq, Repr, Inhabited

structure SetRef where
  id : Nat
  deriving DecidableEq, Repr, Inhabited

structure ClosureRef where
  id : Nat
  deriving DecidableEq, Repr, Inhabited

structure ScopeRef where
  id : Nat
  deriving DecidableEq, Repr, Inhabited

inductive Value where
  | atom (a : Atom)
  | tuple (elems : List Value)
  | list (ref : ListRef)
  | dict (ref : DictRef)
  | set (ref : SetRef)
  | builtin (b : Builtin)
  | closure (ref : ClosureRef)
  deriving Inhabited

namespace Value

@[match_pattern] abbrev null : Value := .atom .null

@[match_pattern] abbrev bool (b : Bool) : Value := .atom (.bool b)

@[match_pattern] abbrev int (i : Int64) : Value := .atom (.int i)

@[match_pattern] abbrev float (f : Float) : Value := .atom (.float f)

@[match_pattern] abbrev str (s : String) : Value := .atom (.str s)

@[match_pattern] abbrev sym (name : String) : Value := .atom (.sym name)

def kind : Value → String
  | .atom a => a.kind
  | .tuple _ => "tuple"
  | .list _ => "list"
  | .dict _ => "dict"
  | .set _ => "set"
  | .builtin _ => "builtin"
  | .closure _ => "fn"

end Value

/-- What the evaluator runs: a value, a form of source code, or whatever a slot of a list holds
at the time. -/
inductive Code where
  | value (v : Value)
  | form (elems : List Code)
  | slot (ref : ListRef) (index : Nat)
  deriving Inhabited

/-- Where a value is read when it is needed: given, or in a slot of a list. -/
inductive Place where
  | value (v : Value)
  | slot (ref : ListRef) (index : Nat)
  deriving Inhabited

namespace Code

mutual

/-- Source code to run. -/
def ofExpr : Expr → Code
  | .atom a => .value (.atom a)
  | .form elems => .form (ofExprs elems)

def ofExprs : List Expr → List Code
  | [] => []
  | e :: es => ofExpr e :: ofExprs es

end

@[match_pattern] abbrev sym (name : String) : Code := .value (.atom (.sym name))

end Code

/-- A mutable sequence: the slots it was made with, of which the first `size` belong to it. -/
structure ListCell where
  slots : Array Value
  size : Nat
  deriving Inhabited

/-- A function: the pattern of its arguments, its body, the scope it was defined in and its name,
empty if it has none. -/
structure Closure where
  pattern : Code
  body : Code
  scope : ScopeRef
  name : String
  deriving Inhabited

/-- A layer of scopes: its own bindings, the names it hides from its base, and the base. -/
structure Layer where
  bindings : List (String × Value)
  hidden : List String
  base : Option ScopeRef
  deriving Inhabited

structure Heap where
  lists : Array ListCell
  dicts : Array (List (Value × Value))
  sets : Array (List Value)
  closures : Array Closure
  layers : Array Layer
  /-- The place of a key in the order in which dicts and sets are iterated. Where functions come depends
  on which ones they are. -/
  rank : Datum → Nat
  deriving Inhabited

namespace Heap

def builtinScope : ScopeRef := ⟨0⟩

/-- A heap with the layer of builtins and nothing else. -/
def initial : Heap :=
  { lists := #[], dicts := #[], sets := #[], closures := #[]
    layers := #[{ bindings := Builtin.all.map fun b => (b.name, .builtin b),
                  hidden := [], base := none }]
    rank := fun _ => 0 }

def list (h : Heap) (r : ListRef) : ListCell := h.lists[r.id]?.getD { slots := #[], size := 0 }

def elems (h : Heap) (r : ListRef) : List Value :=
  let cell := h.list r
  cell.slots.toList.take cell.size

def slot (h : Heap) (r : ListRef) (i : Nat) : Value := (h.list r).slots[i]?.getD .null

def entries (h : Heap) (r : DictRef) : List (Value × Value) := h.dicts[r.id]?.getD []

def members (h : Heap) (r : SetRef) : List Value := h.sets[r.id]?.getD []

def closure (h : Heap) (r : ClosureRef) : Closure :=
  h.closures[r.id]?.getD
    { pattern := .value .null, body := .value .null, scope := builtinScope, name := "" }

def newList (h : Heap) (elems : List Value) : ListRef × Heap :=
  (⟨h.lists.size⟩,
    { h with lists := h.lists.push { slots := elems.toArray, size := elems.length } })

def newDict (h : Heap) (entries : List (Value × Value)) : DictRef × Heap :=
  (⟨h.dicts.size⟩, { h with dicts := h.dicts.push entries })

def newSet (h : Heap) (members : List Value) : SetRef × Heap :=
  (⟨h.sets.size⟩, { h with sets := h.sets.push members })

def newClosure (h : Heap) (c : Closure) : ClosureRef × Heap :=
  (⟨h.closures.size⟩, { h with closures := h.closures.push c })

def setSlot (h : Heap) (r : ListRef) (i : Nat) (v : Value) : Heap :=
  { h with lists := h.lists.modify r.id fun cell =>
      { cell with slots := cell.slots.setIfInBounds i v } }

/-- Removes the element at `i`: later elements move down one slot, the last slot keeps its
content, and the list is one shorter. -/
def removeSlot (h : Heap) (r : ListRef) (i : Nat) : Heap :=
  { h with lists := h.lists.modify r.id fun cell =>
      let before := cell.slots.toList.take i
      let moved := (cell.slots.toList.take cell.size).drop (i + 1)
      let after := cell.slots.toList.drop (cell.size - 1)
      { slots := (before ++ moved ++ after).toArray, size := cell.size - 1 } }

def setEntries (h : Heap) (r : DictRef) (entries : List (Value × Value)) : Heap :=
  { h with dicts := h.dicts.setIfInBounds r.id entries }

end Heap

inductive Ref where
  | list (ref : ListRef)
  | dict (ref : DictRef)
  | set (ref : SetRef)
  | closure (ref : ClosureRef)
  deriving DecidableEq, Repr, Inhabited

namespace Value

mutual

def refs : Value → List Ref
  | .atom _ | .builtin _ => []
  | .tuple elems => refsAll elems
  | .list r => [.list r]
  | .dict r => [.dict r]
  | .set r => [.set r]
  | .closure r => [.closure r]

def refsAll : List Value → List Ref
  | [] => []
  | v :: vs => refs v ++ refsAll vs

end

end Value

namespace Code

mutual

def refs (h : Heap) : Code → List Ref
  | .value v => v.refs
  | .form elems => refsAll h elems
  | .slot r i => (h.slot r i).refs

def refsAll (h : Heap) : List Code → List Ref
  | [] => []
  | c :: cs => refs h c ++ refsAll h cs

end

end Code

structure Lens where
  list : ListRef → Datum
  dict : DictRef → Datum
  set : SetRef → Datum
  closure : ClosureRef → Datum

namespace Value

mutual

def view (lens : Lens) : Value → Datum
  | .atom a => .atom a
  | .tuple elems => .tuple (views lens elems)
  | .list r => lens.list r
  | .dict r => lens.dict r
  | .set r => lens.set r
  | .builtin b => .builtin b.name
  | .closure r => lens.closure r

def views (lens : Lens) : List Value → List Datum
  | [] => []
  | v :: vs => view lens v :: views lens vs

end

end Value

namespace Code

mutual

def view (h : Heap) (lens : Lens) : Code → Datum
  | .value v => v.view lens
  | .form elems => .list (views h lens elems)
  | .slot r i => (h.slot r i).view lens

def views (h : Heap) (lens : Lens) : List Code → List Datum
  | [] => []
  | c :: cs => view h lens c :: views h lens cs

end

end Code

namespace Heap

/-- The number of objects that hold other values, which bounds how deep a value without cycles
is nested. -/
def objectCount (h : Heap) : Nat :=
  h.lists.size + h.dicts.size + h.sets.size + h.closures.size

def lens (h : Heap) : Nat → Lens
  | 0 =>
    { list := fun _ => .list [], dict := fun _ => .dict [], set := fun _ => .set [],
      closure := fun r => .closure r.id "" .null .null }
  | depth + 1 =>
    { list := fun r => .list ((h.elems r).map (Value.view (h.lens depth)))
      dict := fun r => .dict ((h.entries r).map fun e =>
        (e.1.view (h.lens depth), e.2.view (h.lens depth)))
      set := fun r => .set ((h.members r).map (Value.view (h.lens depth)))
      closure := fun r =>
        let c := h.closure r
        .closure r.id c.name (c.pattern.view h (h.lens depth)) (c.body.view h (h.lens depth)) }

def behind (h : Heap) : Ref → List Ref
  | .list r => Value.refsAll (h.elems r)
  | .dict r => (h.entries r).flatMap fun e => e.1.refs ++ e.2.refs
  | .set r => Value.refsAll (h.members r)
  | .closure r =>
    let c := h.closure r
    c.pattern.refs h ++ c.body.refs h

def ends (h : Heap) : Nat → Ref → Bool
  | 0, _ => false
  | depth + 1, r => (h.behind r).all (h.ends depth)

/-- Whether following the references in a value ends, which it does no farther than there are objects.
Otherwise the value reaches something that contains itself. -/
def isFinite (h : Heap) (v : Value) : Bool := v.refs.all (h.ends (h.objectCount + 1))

/-- How far references in a value are followed: to their end if they have one, and not at all
otherwise. -/
def viewDepth (h : Heap) (v : Value) : Nat := if h.isFinite v then h.objectCount + 1 else 0

/-- The value as a whole, as it is now, if it is finite. -/
def datum (h : Heap) (v : Value) : Datum :=
  match v with
  | .atom a => .atom a
  | v => v.view (h.lens (h.viewDepth v))

/-- The value as a whole, none if it is not finite. -/
def datum? (h : Heap) (v : Value) : Option Datum := if h.isFinite v then some (h.datum v) else none

mutual

def codeDatum? (h : Heap) : Code → Option Datum
  | .value v => h.datum? v
  | .form elems => (codeData? h elems).map .list
  | .slot r i => h.datum? (h.slot r i)

def codeData? (h : Heap) : List Code → Option (List Datum)
  | [] => some []
  | c :: cs => do
    let d ← codeDatum? h c
    return d :: (← codeData? h cs)

end

def read (h : Heap) : Place → Value
  | .value v => v
  | .slot r i => h.slot r i

end Heap

/-- A value that can be a key, as a datum in which the definitions of functions are left out. -/
def Value.key (v : Value) : Datum := v.view (Heap.initial.lens 0)

namespace Heap

/-- Sees of a key what gives it its place: of functions in the heap which ones they are. -/
def keyLens (h : Heap) : Lens :=
  { h.lens 0 with
    closure := fun r => if r.id < h.closures.size then .closure r.id "" .null .null else .null }

def place (h : Heap) (k : Value) : Nat := h.rank (k.view h.keyLens)

/-- Entries in the order of iteration, which is that of their keys. -/
def sortEntries {α : Type} (h : Heap) (entries : List (Value × α)) : List (Value × α) :=
  Keyed.ranked (fun e => h.place e.1) entries

def sortMembers (h : Heap) (members : List Value) : List Value := Keyed.ranked h.place members

mutual

def thaw (h : Heap) : Datum → Value × Heap
  | .atom a => (.atom a, h)
  | .list ds =>
    let (vs, h) := h.thawAll ds
    let (r, h) := h.newList vs
    (.list r, h)
  | .tuple ds =>
    let (vs, h) := h.thawAll ds
    (.tuple vs, h)
  | .dict es =>
    let (entries, h) := h.thawEntries es
    let (r, h) := h.newDict entries
    (.dict r, h)
  | .set ds =>
    let (vs, h) := h.thawAll ds
    let (r, h) := h.newSet vs
    (.set r, h)
  | .builtin name => (((Builtin.ofName? name).map Value.builtin).getD .null, h)
  | .closure id .. => (.closure ⟨id⟩, h)

def thawAll (h : Heap) : List Datum → List Value × Heap
  | [] => ([], h)
  | d :: ds =>
    let (v, h) := h.thaw d
    let (vs, h) := h.thawAll ds
    (v :: vs, h)

def thawEntries (h : Heap) : List (Datum × Datum) → List (Value × Value) × Heap
  | [] => ([], h)
  | (k, v) :: es =>
    let (k, h) := h.thaw k
    let (v, h) := h.thaw v
    let (es, h) := h.thawEntries es
    ((k, v) :: es, h)

end

end Heap

end EventTally
