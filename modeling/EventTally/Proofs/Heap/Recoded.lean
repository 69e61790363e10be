import EventTally.Eval.Evaluate

/-! # Heaps that differ in the code of functions

Two heaps may have the same objects and scopes, but for the code of their functions. If every value is
seen as the same datum in both, every operation on values gives the same in both.
-/

namespace EventTally.Heap

/-- The heaps have the same lists, dicts and sets. -/
structure SameObjects (h h' : Heap) : Prop where
  lists : h'.lists = h.lists
  dicts : h'.dicts = h.dicts
  sets : h'.sets = h.sets
  rank : h'.rank = h.rank
  count : h'.closures.size = h.closures.size

namespace SameObjects

variable {h h' : Heap} (hsame : h.SameObjects h')
include hsame

theorem list : h'.list = h.list := by
  funext r
  rw [Heap.list, Heap.list, hsame.lists]

theorem elems : h'.elems = h.elems := by
  funext r
  rw [Heap.elems, Heap.elems, hsame.list]

theorem slot : h'.slot = h.slot := by
  funext r i
  rw [Heap.slot, Heap.slot, hsame.list]

theorem entries : h'.entries = h.entries := by
  funext r
  rw [Heap.entries, Heap.entries, hsame.dicts]

theorem members : h'.members = h.members := by
  funext r
  rw [Heap.members, Heap.members, hsame.sets]

theorem place : h'.place = h.place := by
  funext k
  rw [Heap.place, Heap.place, Heap.keyLens, Heap.keyLens, hsame.rank, hsame.count]
  rfl

theorem sortEntries {α : Type} : h'.sortEntries (α := α) = h.sortEntries := by
  funext entries
  rw [Heap.sortEntries, Heap.sortEntries, hsame.place]

theorem sortMembers : h'.sortMembers = h.sortMembers := by
  funext members
  rw [Heap.sortMembers, Heap.sortMembers, hsame.place]

end SameObjects

/-- The second heap differs from the first in nothing but the code of functions, which does not show. -/
structure Recoded (h h' : Heap) : Prop extends SameObjects h h' where
  layers : h'.layers = h.layers
  datum : h'.datum = h.datum
  finite : h'.isFinite = h.isFinite

namespace Recoded

variable {h h' : Heap} (hsame : h.Recoded h')
include hsame

theorem places : h'.places = h.places := by
  funext r
  rw [Heap.places, Heap.places, hsame.elems]

theorem read : h'.read = h.read := by
  funext p
  cases p with
  | value v => rfl
  | slot r i => rw [Heap.read, Heap.read, hsame.slot]

theorem len? : h'.len? = h.len? := by
  funext v
  cases v with
  | list r => rw [Heap.len?, Heap.len?, hsame.elems]
  | dict r => rw [Heap.len?, Heap.len?, hsame.entries]
  | set r => rw [Heap.len?, Heap.len?, hsame.members]
  | atom a => cases a <;> rfl
  | _ => rfl

theorem truthy : h'.truthy = h.truthy := by
  funext v
  unfold Heap.truthy
  rw [hsame.len?]

theorem iterate : h'.iterate = h.iterate := by
  funext v
  unfold Heap.iterate
  rw [hsame.elems, hsame.entries, hsame.members, hsame.sortEntries, hsame.sortMembers]

theorem loopPlaces : h'.loopPlaces = h.loopPlaces := by
  funext v
  unfold Heap.loopPlaces
  rw [hsame.places, hsame.iterate]

theorem equal : h'.equal = h.equal := by
  funext v v'
  rw [Heap.equal, Heap.equal, hsame.datum]

theorem sameKey : h'.sameKey = h.sameKey := by
  funext k l
  unfold Heap.sameKey
  rw [hsame.datum]

theorem findEntry : h'.findEntry = h.findEntry := by
  funext entries k
  rw [Heap.findEntry, Heap.findEntry, hsame.sameKey]

theorem insertEntry {α : Type} : h'.insertEntry (α := α) = h.insertEntry := by
  funext k v entries
  rw [Heap.insertEntry, Heap.insertEntry, Heap.hashable, Heap.hashable, hsame.datum, hsame.sameKey]

theorem insertMember : h'.insertMember = h.insertMember := by
  funext k members
  rw [Heap.insertMember, Heap.insertMember, Heap.hashable, Heap.hashable, hsame.datum, hsame.sameKey]

theorem index : h'.index = h.index := by
  funext v k
  unfold Heap.index
  rw [hsame.findEntry, hsame.entries, hsame.elems, hsame.datum]

theorem hasIndex : h'.hasIndex = h.hasIndex := by
  funext v k
  unfold Heap.hasIndex
  rw [hsame.findEntry, hsame.entries, hsame.len?]

theorem datum? : h'.datum? = h.datum? := by
  funext v
  rw [Heap.datum?, Heap.datum?, hsame.finite, hsame.datum]

theorem equalRefs : h'.equalRefs = h.equalRefs := by
  funext depth
  induction depth with
  | zero => rfl
  | succ depth ih =>
    funext a b
    cases a <;> cases b <;> simp only [Heap.equalRefs, ih, hsame.elems, hsame.entries, hsame.members,
      hsame.sortEntries, hsame.findEntry, hsame.sameKey]

theorem orderLists : h'.orderLists = h.orderLists := by
  funext depth
  induction depth with
  | zero => rfl
  | succ depth ih =>
    funext a b
    rw [Heap.orderLists, Heap.orderLists, hsame.equalRefs, hsame.elems, ih]

theorem equal? : h'.equal? = h.equal? := by
  funext v w
  rw [Heap.equal?, Heap.equal?, hsame.finite, hsame.equal, hsame.equalRefs]

theorem order? : h'.order? = h.order? := by
  funext v w
  rw [Heap.order?, Heap.order?, hsame.finite, hsame.datum, hsame.equalRefs, hsame.orderLists]

theorem relate? : h'.relate? = h.relate? := by
  funext rel v w
  unfold Heap.relate?
  rw [hsame.equal?, hsame.order?]

theorem contains : EvalM.contains h' = EvalM.contains h := by
  funext col elem
  unfold EvalM.contains
  rw [hsame.findEntry, hsame.entries, hsame.members, hsame.sameKey, hsame.iterate, hsame.equal?]

theorem layer : h'.layer = h.layer := by
  funext s
  rw [Heap.layer, Heap.layer, hsame.layers]

theorem localValue : h'.localValue = h.localValue := by
  funext s name
  rw [Heap.localValue, Heap.localValue, hsame.layer]

theorem hides : h'.hides = h.hides := by
  funext s name
  rw [Heap.hides, Heap.hides, hsame.layer]

theorem lookup : h'.lookup = h.lookup := by
  funext s name
  fun_induction Heap.lookup h s name with
  | case1 s v hlocal => rw [Heap.lookup, hsame.localValue, hlocal]
  | case2 s hlocal hhides =>
    rw [Heap.lookup, hsame.localValue, hlocal, hsame.hides]
    exact if_pos hhides
  | case3 s hlocal hhides hbase =>
    rw [Heap.lookup, hsame.localValue, hlocal, hsame.hides, hsame.layer, hbase]
    exact if_neg hhides
  | case4 s hlocal hhides b hbase hlt ih =>
    rw [Heap.lookup, hsame.localValue, hlocal, hsame.hides, hsame.layer, hbase]
    dsimp only
    rw [if_neg hhides, if_pos hlt, ih]
  | case5 s hlocal hhides b hbase hlt =>
    rw [Heap.lookup, hsame.localValue, hlocal, hsame.hides, hsame.layer, hbase]
    dsimp only
    rw [if_neg hhides, if_neg hlt]

theorem baseShows : h'.baseShows = h.baseShows := by
  funext s name
  unfold Heap.baseShows
  rw [hsame.layer, hsame.lookup]

end Recoded

end EventTally.Heap
