import EventTally.Eval.Collection
import EventTally.Proofs.Codec
import EventTally.Proofs.Heap.Ending

/-! # Sound heaps

In a sound heap the keys of dicts and the members of sets are hashable. A value is hashable or not
whatever the heap holds, as collections with an identity never are. The data seen in a sound heap
are sound, and making values of sound data keeps the heap sound.
-/

namespace EventTally

namespace Value

mutual

/-- Whether a value can be a key. -/
def hashable : Value → Bool
  | .atom _ | .builtin _ | .closure _ => true
  | .tuple elems => allHashable elems
  | .list _ | .dict _ | .set _ => false

def allHashable : List Value → Bool
  | [] => true
  | v :: vs => hashable v && allHashable vs

end

theorem allHashable_iff (vs : List Value) :
    allHashable vs = true ↔ ∀ v ∈ vs, v.hashable = true := by
  induction vs with
  | nil => simp [allHashable]
  | cons v vs ih => simp [allHashable, ih]

end Value

namespace Heap

mutual

theorem hashable_view (h : Heap) (depth : Nat) (v : Value) :
    (v.view (h.lens depth)).hashable = v.hashable := by
  match v with
  | .atom a => rfl
  | .builtin b => rfl
  | .tuple vs =>
    rw [Value.view, Datum.hashable, Value.hashable]
    exact h.allHashable_views depth vs
  | .list r | .dict r | .set r | .closure r => cases depth <;> rfl

theorem allHashable_views (h : Heap) (depth : Nat) (vs : List Value) :
    Datum.allHashable (Value.views (h.lens depth) vs) = Value.allHashable vs := by
  match vs with
  | [] => rfl
  | v :: vs =>
    rw [Value.views, Datum.allHashable, Value.allHashable, h.hashable_view depth v,
      h.allHashable_views depth vs]

end

theorem hashable_eq (h : Heap) (v : Value) : h.hashable v = v.hashable := by
  rw [hashable, datum_eq_view, hashable_view]

structure Sound (h : Heap) : Prop where
  keys : ∀ r, ∀ e ∈ h.entries r, e.1.hashable = true
  members : ∀ r, ∀ v ∈ h.members r, v.hashable = true

theorem sound_initial : Heap.initial.Sound := by
  constructor
  · intro r e he
    simp [entries, initial] at he
  · intro r v hv
    simp [members, initial] at hv

namespace Sound

variable {h : Heap}

theorem of_eq (hs : h.Sound) {h' : Heap} (hdicts : h'.dicts = h.dicts) (hsets : h'.sets = h.sets) :
    h'.Sound := by
  constructor
  · intro r e he
    rw [entries, hdicts] at he
    exact hs.keys r e he
  · intro r v hv
    rw [Heap.members, hsets] at hv
    exact hs.members r v hv

theorem newDict (hs : h.Sound) {es : List (Value × Value)} (hes : ∀ e ∈ es, e.1.hashable = true) :
    (h.newDict es).2.Sound := by
  constructor
  · intro r e he
    simp only [Heap.newDict, entries, Array.getElem?_push] at he
    split at he
    · exact hes e he
    · exact hs.keys r e he
  · exact hs.members

theorem newSet (hs : h.Sound) {vs : List Value} (hvs : ∀ v ∈ vs, v.hashable = true) :
    (h.newSet vs).2.Sound := by
  constructor
  · exact hs.keys
  · intro r v hv
    simp only [Heap.newSet, Heap.members, Array.getElem?_push] at hv
    split at hv
    · exact hvs v hv
    · exact hs.members r v hv

theorem setEntries (hs : h.Sound) {es : List (Value × Value)} (ref : DictRef)
    (hes : ∀ e ∈ es, e.1.hashable = true) : (h.setEntries ref es).Sound := by
  constructor
  · intro r e he
    simp only [Heap.setEntries, entries, Array.getElem?_setIfInBounds] at he
    split at he
    · split at he
      · exact hes e he
      · cases he
    · exact hs.keys r e he
  · exact hs.members

end Sound

mutual

theorem sound_view_of_lens {lens : Lens} (hlist : ∀ r, (lens.list r).Sound)
    (hdict : ∀ r, (lens.dict r).Sound) (hset : ∀ r, (lens.set r).Sound)
    (hclosure : ∀ r, (lens.closure r).Sound) (v : Value) : (v.view lens).Sound := by
  match v with
  | .atom a => exact .atom a
  | .builtin b => exact .builtin _
  | .tuple vs => exact .tuple (sound_views_of_lens hlist hdict hset hclosure vs)
  | .list r => exact hlist r
  | .dict r => exact hdict r
  | .set r => exact hset r
  | .closure r => exact hclosure r

theorem sound_views_of_lens {lens : Lens} (hlist : ∀ r, (lens.list r).Sound)
    (hdict : ∀ r, (lens.dict r).Sound) (hset : ∀ r, (lens.set r).Sound)
    (hclosure : ∀ r, (lens.closure r).Sound) (vs : List Value) :
    ∀ d ∈ Value.views lens vs, d.Sound := by
  match vs with
  | [] => simp [Value.views]
  | v :: vs =>
    rw [Value.views]
    rintro d (_ | ⟨_, hd⟩)
    · exact sound_view_of_lens hlist hdict hset hclosure v
    · exact sound_views_of_lens hlist hdict hset hclosure vs d hd

end

theorem Sound.view {h : Heap} (hs : h.Sound) (depth : Nat) (v : Value) :
    (v.view (h.lens depth)).Sound := by
  induction depth generalizing v with
  | zero =>
    refine sound_view_of_lens ?_ ?_ ?_ ?_ v
    · exact fun r => .list (by simp)
    · exact fun r => .dict (by simp) (by simp) (by simp)
    · exact fun r => .set (by simp) (by simp)
    · exact fun r => .closure ..
  | succ depth ih =>
    refine sound_view_of_lens ?_ ?_ ?_ ?_ v
    · intro r
      refine .list ?_
      simp only [List.mem_map]
      rintro d ⟨v, -, rfl⟩
      exact ih v
    · intro r
      refine .dict ?_ ?_ ?_ <;> simp only [List.mem_map] <;> rintro d ⟨e, he, rfl⟩
      · exact (h.hashable_view depth e.1).trans (hs.keys r e he)
      · exact ih e.1
      · exact ih e.2
    · intro r
      refine .set ?_ ?_ <;> simp only [List.mem_map] <;> rintro d ⟨v, hv, rfl⟩
      · exact (h.hashable_view depth v).trans (hs.members r v hv)
      · exact ih v
    · exact fun r => .closure ..

theorem Sound.datum {h : Heap} (hs : h.Sound) (v : Value) : (h.datum v).Sound := by
  rw [datum_eq_view]
  exact hs.view _ v

section

variable {α : Type} {Key : Value → Prop}

theorem insertEntry_eq_ok {h : Heap} {k : Value} {v : α} {entries entries' : List (Value × α)}
    (hins : h.insertEntry k v entries = .ok entries') :
    k.hashable = true ∧ ∀ e ∈ entries', e = (k, v) ∨ e ∈ entries := by
  unfold insertEntry at hins
  split at hins
  case isTrue hk =>
    cases hins
    rw [hashable_eq] at hk
    exact ⟨hk, fun e he => Codec.mem_insert he⟩
  case isFalse => cases hins

theorem insertMember_eq_ok {h : Heap} {k : Value} {members members' : List Value}
    (hins : h.insertMember k members = .ok members') :
    k.hashable = true ∧ ∀ v ∈ members', v = k ∨ v ∈ members := by
  unfold insertMember at hins
  split at hins
  case isTrue hk =>
    cases hins
    rw [hashable_eq] at hk
    exact ⟨hk, fun v hv => Codec.mem_insertElem hv⟩
  case isFalse => cases hins

theorem keys_insertEntry (hKey : ∀ v : Value, v.hashable = true → Key v) {h : Heap} {k : Value}
    {v : α} {entries entries' : List (Value × α)} (hkeys : ∀ e ∈ entries, Key e.1)
    (hins : h.insertEntry k v entries = .ok entries') : ∀ e ∈ entries', Key e.1 := by
  obtain ⟨hk, hmem⟩ := insertEntry_eq_ok hins
  intro e he
  rcases hmem e he with rfl | he
  · exact hKey k hk
  · exact hkeys e he

end

end Heap

end EventTally
