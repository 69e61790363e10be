import EventTally.Proofs.Heap.Extends
import EventTally.Proofs.Keyed
import EventTally.Proofs.Renaming.Datum
import EventTally.Proofs.Renaming.Value
import EventTally.Scope

/-! # Images of heaps

A heap can hold an image of another one: each object of the other heap is there under a new number, with
what it holds renamed, among objects that have nothing to do with it. Both heaps can then be changed in
step: new objects are made together, objects are changed together, and the objects that belong to no
image stay as they are.

New objects of the image go to the end of the greater heap. They have the numbers that the renaming
gives them as long as the smaller heap is within a given final size.
-/

namespace EventTally

/-- The elements of `bs` are in `as`, at new places and changed by `f`. The next elements can be added to
both until `bs` has `limit` elements. Elsewhere `as` is as `old` was. -/
structure Embeds {α : Type} (ρ : Nat → Nat) (f : α → α) (limit : Nat) (old bs as : Array α) :
    Prop where
  copy : ∀ i, as[ρ i]? = bs[i]?.map f
  next : ∀ j, bs.size + j < limit → ρ (bs.size + j) = as.size + j
  rest : ∀ i, (∀ j, ρ j ≠ i) → as[i]? = old[i]?
  grows : old.size ≤ as.size

namespace Embeds

variable {α : Type} {ρ : Nat → Nat} {f : α → α} {limit : Nat} {old bs as : Array α}

theorem push (he : Embeds ρ f limit old bs as) (hρ : StrictMono ρ) (hlt : bs.size < limit) (b : α) :
    Embeds ρ f limit old (bs.push b) (as.push (f b)) := by
  have hnext : ρ bs.size = as.size := he.next 0 hlt
  constructor
  · intro i
    rw [Array.getElem?_push, Array.getElem?_push, ← hnext]
    by_cases hi : i = bs.size
    · rw [hi, if_pos rfl, if_pos rfl, Option.map_some]
    · rw [if_neg hi, if_neg fun heq => hi (hρ.injective heq), he.copy]
  · intro j hj
    rw [Array.size_push, Array.size_push, Nat.add_assoc, Nat.add_assoc]
    rw [Array.size_push, Nat.add_assoc] at hj
    exact he.next (1 + j) hj
  · intro i hi
    have hne : i ≠ as.size := by
      rintro rfl
      exact hi _ hnext
    rw [Array.getElem?_push, if_neg hne, he.rest i hi]
  · rw [Array.size_push]
    exact Nat.le_succ_of_le he.grows

theorem modify (he : Embeds ρ f limit old bs as) (hρ : StrictMono ρ) (i : Nat) {g g' : α → α}
    (hg : ∀ b, f (g b) = g' (f b)) :
    Embeds ρ f limit old (bs.modify i g) (as.modify (ρ i) g') := by
  constructor
  · intro k
    rw [Array.getElem?_modify, Array.getElem?_modify, he.copy]
    by_cases hk : i = k
    · rw [hk, if_pos rfl, if_pos rfl]
      cases bs[k]? with
      | none => rfl
      | some b => exact congrArg some (hg b).symm
    · rw [if_neg hk, if_neg fun heq => hk (hρ.injective heq)]
  · intro j hj
    rw [Array.size_modify] at hj ⊢
    rw [Array.size_modify]
    exact he.next j hj
  · intro k hk
    rw [Array.getElem?_modify, if_neg (hk i), he.rest k hk]
  · rw [Array.size_modify]
    exact he.grows

theorem setIfInBounds (he : Embeds ρ f limit old bs as) (hρ : StrictMono ρ) (i : Nat) (b : α) :
    Embeds ρ f limit old (bs.setIfInBounds i b) (as.setIfInBounds (ρ i) (f b)) := by
  constructor
  · intro k
    rw [Array.getElem?_setIfInBounds, Array.getElem?_setIfInBounds]
    by_cases hk : i = k
    · rw [hk, if_pos rfl, if_pos rfl]
      have hcopy := he.copy k
      by_cases hlt : k < bs.size
      · rw [Array.getElem?_eq_getElem hlt, Option.map_some] at hcopy
        rw [if_pos hlt, if_pos (Array.getElem?_eq_some_iff.mp hcopy).1, Option.map_some]
      · rw [Array.getElem?_eq_none (Nat.le_of_not_lt hlt), Option.map_none] at hcopy
        rw [if_neg hlt, if_neg (Nat.not_lt.mpr (Array.getElem?_eq_none_iff.mp hcopy)), Option.map_none]
    · rw [if_neg hk, if_neg fun heq => hk (hρ.injective heq), he.copy]
  · intro j hj
    rw [Array.size_setIfInBounds] at hj ⊢
    rw [Array.size_setIfInBounds]
    exact he.next j hj
  · intro k hk
    rw [Array.getElem?_setIfInBounds, if_neg (hk i), he.rest k hk]
  · rw [Array.size_setIfInBounds]
    exact he.grows

end Embeds

namespace Heap

structure Within (h final : Heap) : Prop where
  lists : h.lists.size ≤ final.lists.size
  dicts : h.dicts.size ≤ final.dicts.size
  sets : h.sets.size ≤ final.sets.size
  closures : h.closures.size ≤ final.closures.size
  layers : h.layers.size ≤ final.layers.size
  rank : h.rank = final.rank

namespace Within

variable {h final : Heap}

theorem refl (h : Heap) : h.Within h := ⟨le_rfl, le_rfl, le_rfl, le_rfl, le_rfl, rfl⟩

theorem of_bind {s : ScopeRef} {name : String} {v : Value} (hwithin : (h.bind s name v).Within final) :
    h.Within final := by
  refine ⟨hwithin.lists, hwithin.dicts, hwithin.sets, hwithin.closures, ?_, hwithin.rank⟩
  simpa [Heap.bind] using hwithin.layers

theorem of_bindAll {s : ScopeRef} {bindings : List (String × Value)}
    (hwithin : (h.bindAll s bindings).Within final) : h.Within final := by
  induction bindings generalizing h with
  | nil => exact hwithin
  | cons b bindings ih => exact (ih hwithin).of_bind

theorem of_unbind {s : ScopeRef} {name : String} (hwithin : (h.unbind s name).Within final) :
    h.Within final := by
  refine ⟨hwithin.lists, hwithin.dicts, hwithin.sets, hwithin.closures, ?_, hwithin.rank⟩
  simpa [Heap.unbind] using hwithin.layers

theorem of_setSlot {r : ListRef} {i : Nat} {v : Value} (hwithin : (h.setSlot r i v).Within final) :
    h.Within final := by
  refine ⟨?_, hwithin.dicts, hwithin.sets, hwithin.closures, hwithin.layers, hwithin.rank⟩
  simpa [Heap.setSlot] using hwithin.lists

theorem of_removeSlot {r : ListRef} {i : Nat} (hwithin : (h.removeSlot r i).Within final) :
    h.Within final := by
  refine ⟨?_, hwithin.dicts, hwithin.sets, hwithin.closures, hwithin.layers, hwithin.rank⟩
  simpa [Heap.removeSlot] using hwithin.lists

theorem of_setEntries {r : DictRef} {es : List (Value × Value)}
    (hwithin : (h.setEntries r es).Within final) : h.Within final := by
  refine ⟨hwithin.lists, ?_, hwithin.sets, hwithin.closures, hwithin.layers, hwithin.rank⟩
  simpa [Heap.setEntries] using hwithin.dicts

end Within

/-- `h'` holds an image of `h`, which may grow to the size of `final`; its other objects are those of
`old`. -/
structure Image (ρ : Renaming) (final old h h' : Heap) : Prop where
  ordered : ρ.Ordered
  lists : Embeds ρ.lists ρ.cell final.lists.size old.lists h.lists h'.lists
  dicts : Embeds ρ.dicts (List.map ρ.entry) final.dicts.size old.dicts h.dicts h'.dicts
  sets : Embeds ρ.sets (List.map ρ.value) final.sets.size old.sets h.sets h'.sets
  closures : Embeds ρ.closures ρ.function final.closures.size old.closures h.closures h'.closures
  layers : Embeds ρ.layers ρ.layer final.layers.size old.layers h.layers h'.layers
  kept : h'.rank = old.rank
  /-- Keys come in the same order. -/
  rank : ∀ d : Datum, d.Below (max h.closures.size final.closures.size) →
    h'.rank (d.rename ρ.closures) = h.rank d

namespace Image

variable {ρ : Renaming} {final old h h' : Heap} (himage : Image ρ final old h h')
include himage

theorem list (r : ListRef) : h'.list (ρ.list r) = ρ.cell (h.list r) := by
  unfold Heap.list Renaming.list
  rw [himage.lists.copy]
  cases h.lists[r.id]? with
  | none => simp [Renaming.cell]
  | some c => rfl

theorem elems (r : ListRef) : h'.elems (ρ.list r) = (h.elems r).map ρ.value := by
  unfold Heap.elems
  rw [himage.list]
  simp [Renaming.cell, List.map_take]

theorem slot (r : ListRef) (i : Nat) : h'.slot (ρ.list r) i = ρ.value (h.slot r i) := by
  unfold Heap.slot
  rw [himage.list]
  unfold Renaming.cell
  rw [Array.getElem?_map]
  cases (h.list r).slots[i]? <;> rfl

theorem entries (r : DictRef) : h'.entries (ρ.dict r) = (h.entries r).map ρ.entry := by
  unfold Heap.entries Renaming.dict
  rw [himage.dicts.copy]
  cases h.dicts[r.id]? <;> rfl

theorem members (r : SetRef) : h'.members (ρ.set r) = (h.members r).map ρ.value := by
  unfold Heap.members Renaming.set
  rw [himage.sets.copy]
  cases h.sets[r.id]? <;> rfl

theorem layer (s : ScopeRef) : h'.layer (ρ.scope s) = ρ.layer (h.layer s) := by
  unfold Heap.layer Renaming.scope
  rw [himage.layers.copy]
  cases h.layers[s.id]? <;> rfl

theorem closure (r : ClosureRef) : h'.closure (ρ.closure r) = ρ.function (h.closure r) := by
  unfold Heap.closure Renaming.closure
  rw [himage.closures.copy]
  cases h.closures[r.id]? with
  | none => simp [Renaming.function, Renaming.code, Renaming.value, himage.ordered.builtins]
  | some c => rfl

theorem slots (r : ListRef) : h'.slots (ρ.list r) = (h.slots r).map ρ.code := by
  unfold Heap.slots
  rw [himage.elems]
  simp [Renaming.code]

theorem places (r : ListRef) : h'.places (ρ.list r) = (h.places r).map ρ.place := by
  unfold Heap.places
  rw [himage.elems]
  simp [Renaming.place]

theorem read (p : Place) : h'.read (ρ.place p) = ρ.value (h.read p) := by
  cases p with
  | value v => rfl
  | slot r i => exact himage.slot r i

theorem localValue (s : ScopeRef) (name : String) :
    h'.localValue (ρ.scope s) name = (h.localValue s name).map ρ.value := by
  unfold Heap.localValue
  rw [himage.layer]
  exact Keyed.find?_map (m := ρ.binding) (fun _ => rfl) fun _ => rfl

theorem hides (s : ScopeRef) (name : String) : h'.hides (ρ.scope s) name = h.hides s name := by
  unfold Heap.hides
  rw [himage.layer]
  rfl

theorem lookup (s : ScopeRef) (name : String) :
    h'.lookup (ρ.scope s) name = (h.lookup s name).map ρ.value := by
  induction hn : s.id using Nat.strong_induction_on generalizing s with
  | _ n ih =>
    subst hn
    rw [Heap.lookup, Heap.lookup.eq_def h s, himage.localValue, himage.hides, himage.layer]
    cases h.localValue s name with
    | some v => rfl
    | none =>
      rw [Renaming.layer]
      dsimp only [Option.map_none]
      by_cases hhides : h.hides s name = true
      · rw [if_pos hhides, if_pos hhides, Option.map_none]
      · rw [if_neg hhides, if_neg hhides]
        cases (h.layer s).base with
        | none => rfl
        | some b =>
          have hlt : (ρ.scope b).id < (ρ.scope s).id ↔ b.id < s.id := himage.ordered.layers.lt_iff_lt
          dsimp only [Option.map_some]
          by_cases hbase : b.id < s.id
          · rw [if_pos hbase, if_pos (hlt.mpr hbase), ih b.id hbase b rfl]
          · rw [if_neg hbase, if_neg fun h => hbase (hlt.mp h), Option.map_none]

theorem baseShows (s : ScopeRef) (name : String) :
    h'.baseShows (ρ.scope s) name = h.baseShows s name := by
  unfold Heap.baseShows
  rw [himage.layer, Renaming.layer]
  cases (h.layer s).base with
  | none => rfl
  | some b =>
    dsimp only [Option.map_some]
    rw [himage.lookup, Option.isSome_map]

theorem modifyLayer (s : ScopeRef) {f f' : Layer → Layer} (hf : ∀ l, ρ.layer (f l) = f' (ρ.layer l)) :
    Image ρ final old { h with layers := h.layers.modify s.id f }
      { h' with layers := h'.layers.modify (ρ.scope s).id f' } :=
  ⟨himage.ordered, himage.lists, himage.dicts, himage.sets, himage.closures,
    himage.layers.modify himage.ordered.layers s.id hf, himage.kept, himage.rank⟩

theorem bind (s : ScopeRef) (name : String) (v : Value) :
    Image ρ final old (h.bind s name v) (h'.bind (ρ.scope s) name (ρ.value v)) := by
  refine himage.modifyLayer s fun l => ?_
  have hinsert : Keyed.insert (· == name) name (ρ.value v) (l.bindings.map ρ.binding) =
      (Keyed.insert (· == name) name v l.bindings).map ρ.binding :=
    Keyed.insert_map (m := ρ.binding) (fun _ => rfl) name v
  unfold Renaming.layer
  dsimp only
  rw [hinsert]

omit himage in
theorem bindAll (himage : Image ρ final old h h') (s : ScopeRef) (bindings : List (String × Value)) :
    Image ρ final old (h.bindAll s bindings) (h'.bindAll (ρ.scope s) (bindings.map ρ.binding)) := by
  induction bindings generalizing h h' with
  | nil => exact himage
  | cons b bindings ih => exact ih (himage.bind s b.1 b.2)

theorem unbind (s : ScopeRef) (name : String) :
    Image ρ final old (h.unbind s name) (h'.unbind (ρ.scope s) name) := by
  unfold Heap.unbind
  rw [himage.baseShows]
  refine himage.modifyLayer s fun l => ?_
  have herase : Keyed.erase (· == name) (l.bindings.map ρ.binding) =
      (Keyed.erase (· == name) l.bindings).map ρ.binding :=
    Keyed.erase_map fun _ => rfl
  unfold Renaming.layer
  dsimp only
  rw [herase]

theorem modifyList (r : ListRef) {f f' : ListCell → ListCell} (hf : ∀ c, ρ.cell (f c) = f' (ρ.cell c)) :
    Image ρ final old { h with lists := h.lists.modify r.id f }
      { h' with lists := h'.lists.modify (ρ.list r).id f' } :=
  ⟨himage.ordered, himage.lists.modify himage.ordered.lists r.id hf, himage.dicts, himage.sets,
    himage.closures, himage.layers, himage.kept, himage.rank⟩

theorem setSlot (r : ListRef) (i : Nat) (v : Value) :
    Image ρ final old (h.setSlot r i v) (h'.setSlot (ρ.list r) i (ρ.value v)) := by
  refine himage.modifyList r fun c => ?_
  unfold Renaming.cell
  simp

theorem removeSlot (r : ListRef) (i : Nat) :
    Image ρ final old (h.removeSlot r i) (h'.removeSlot (ρ.list r) i) := by
  refine himage.modifyList r fun c => ?_
  simp [Renaming.cell, List.map_take, List.map_drop]

theorem setEntries (r : DictRef) (es : List (Value × Value)) :
    Image ρ final old (h.setEntries r es) (h'.setEntries (ρ.dict r) (es.map ρ.entry)) :=
  ⟨himage.ordered, himage.lists, himage.dicts.setIfInBounds himage.ordered.dicts r.id es, himage.sets,
    himage.closures, himage.layers, himage.kept, himage.rank⟩

end Image

/-- Made in a heap that holds an image, the new object is the image of that made in the smaller heap,
unless that heap has outgrown its final size. -/
def Makes {α β : Type} (ρ : Renaming) (final old : Heap) (g : α → β) (make : Heap → α × Heap)
    (make' : Heap → β × Heap) : Prop :=
  ∀ h, (make h).2.Within final → h.Within final ∧
    ∀ h', Image ρ final old h h' →
      Image ρ final old (make h).2 (make' h').2 ∧ (make' h').1 = g (make h).1

section

variable {ρ : Renaming} {final old : Heap}

theorem makes_newList (vs : List Value) :
    Makes ρ final old ρ.list (·.newList vs) (·.newList (vs.map ρ.value)) := by
  intro h hwithin
  have hlt : h.lists.size < final.lists.size := by
    have hsize : (h.lists.push _).size ≤ final.lists.size := hwithin.lists
    rwa [Array.size_push] at hsize
  refine ⟨⟨hlt.le, hwithin.dicts, hwithin.sets, hwithin.closures, hwithin.layers, hwithin.rank⟩, ?_⟩
  intro h' himage
  refine ⟨⟨himage.ordered, ?_, himage.dicts, himage.sets, himage.closures, himage.layers, himage.kept,
    himage.rank⟩, ?_⟩
  · have hcell : ρ.cell { slots := vs.toArray, size := vs.length } =
        { slots := (vs.map ρ.value).toArray, size := (vs.map ρ.value).length } := by
      simp [Renaming.cell]
    have hpush := himage.lists.push himage.ordered.lists hlt { slots := vs.toArray, size := vs.length }
    rwa [hcell] at hpush
  · exact congrArg ListRef.mk (himage.lists.next 0 hlt).symm

theorem makes_newDict (es : List (Value × Value)) :
    Makes ρ final old ρ.dict (·.newDict es) (·.newDict (es.map ρ.entry)) := by
  intro h hwithin
  have hlt : h.dicts.size < final.dicts.size := by
    have hsize : (h.dicts.push _).size ≤ final.dicts.size := hwithin.dicts
    rwa [Array.size_push] at hsize
  refine ⟨⟨hwithin.lists, hlt.le, hwithin.sets, hwithin.closures, hwithin.layers, hwithin.rank⟩, ?_⟩
  intro h' himage
  exact ⟨⟨himage.ordered, himage.lists, himage.dicts.push himage.ordered.dicts hlt es, himage.sets,
    himage.closures, himage.layers, himage.kept, himage.rank⟩,
    congrArg DictRef.mk (himage.dicts.next 0 hlt).symm⟩

theorem makes_newSet (vs : List Value) :
    Makes ρ final old ρ.set (·.newSet vs) (·.newSet (vs.map ρ.value)) := by
  intro h hwithin
  have hlt : h.sets.size < final.sets.size := by
    have hsize : (h.sets.push _).size ≤ final.sets.size := hwithin.sets
    rwa [Array.size_push] at hsize
  refine ⟨⟨hwithin.lists, hwithin.dicts, hlt.le, hwithin.closures, hwithin.layers, hwithin.rank⟩, ?_⟩
  intro h' himage
  exact ⟨⟨himage.ordered, himage.lists, himage.dicts, himage.sets.push himage.ordered.sets hlt vs,
    himage.closures, himage.layers, himage.kept, himage.rank⟩,
    congrArg SetRef.mk (himage.sets.next 0 hlt).symm⟩

theorem makes_newClosure (c : Closure) :
    Makes ρ final old ρ.closure (·.newClosure c) (·.newClosure (ρ.function c)) := by
  intro h hwithin
  have hlt : h.closures.size < final.closures.size := by
    have hsize : (h.closures.push _).size ≤ final.closures.size := hwithin.closures
    rwa [Array.size_push] at hsize
  refine ⟨⟨hwithin.lists, hwithin.dicts, hwithin.sets, hlt.le, hwithin.layers, hwithin.rank⟩, ?_⟩
  intro h' himage
  have hmax : max h.closures.size final.closures.size =
      max (h.closures.push c).size final.closures.size := by
    rw [Array.size_push, max_eq_right hlt.le, max_eq_right hlt]
  exact ⟨⟨himage.ordered, himage.lists, himage.dicts, himage.sets,
    himage.closures.push himage.ordered.closures hlt c, himage.layers, himage.kept,
    fun d hd => himage.rank d (hmax ▸ hd)⟩, congrArg ClosureRef.mk (himage.closures.next 0 hlt).symm⟩

theorem makes_child (s : ScopeRef) :
    Makes ρ final old ρ.scope (·.child s) (·.child (ρ.scope s)) := by
  intro h hwithin
  have hlt : h.layers.size < final.layers.size := by
    have hsize : (h.layers.push _).size ≤ final.layers.size := hwithin.layers
    rwa [Array.size_push] at hsize
  refine ⟨⟨hwithin.lists, hwithin.dicts, hwithin.sets, hwithin.closures, hlt.le, hwithin.rank⟩, ?_⟩
  intro h' himage
  exact ⟨⟨himage.ordered, himage.lists, himage.dicts, himage.sets, himage.closures,
    himage.layers.push himage.ordered.layers hlt { bindings := [], hidden := [], base := some s },
    himage.kept, himage.rank⟩,
    congrArg ScopeRef.mk (himage.layers.next 0 hlt).symm⟩

variable {α β γ : Type} {g : α → β} {k : γ → γ}

theorem Makes.pure (a : α) : Makes ρ final old g (a, ·) (g a, ·) :=
  fun _ hwithin => ⟨hwithin, fun _ himage => ⟨himage, rfl⟩⟩

theorem Makes.bind {g : α → α} {make make' : Heap → α × Heap} (hmake : Makes ρ final old g make make')
    (next : α → Heap → γ × Heap) (hnext : ∀ a, Makes ρ final old k (next a) (next (g a))) :
    Makes ρ final old k (fun h => next (make h).1 (make h).2) fun h => next (make' h).1 (make' h).2 := by
  intro h hwithin
  obtain ⟨hmid, hafter⟩ := hnext _ _ hwithin
  obtain ⟨hbefore, hfirst⟩ := hmake h hmid
  refine ⟨hbefore, fun h' himage => ?_⟩
  obtain ⟨himage', hresult⟩ := hfirst h' himage
  dsimp only
  rw [hresult]
  exact hafter _ himage'

theorem Makes.map {δ : Type} {k : γ → δ} {make : Heap → α × Heap} {make' : Heap → β × Heap}
    (hmake : Makes ρ final old g make make') {f : α → γ} {f' : β → δ} (hf : ∀ a, f' (g a) = k (f a)) :
    Makes ρ final old k (fun h => (f (make h).1, (make h).2)) fun h => (f' (make' h).1, (make' h).2) := by
  intro h hwithin
  obtain ⟨hbefore, hmade⟩ := hmake h hwithin
  refine ⟨hbefore, fun h' himage => ?_⟩
  obtain ⟨himage', hresult⟩ := hmade h' himage
  refine ⟨himage', ?_⟩
  dsimp only
  rw [hresult, hf]

theorem makes_listValue (vs : List Value) :
    Makes ρ final old ρ.value (fun h => (.list (h.newList vs).1, (h.newList vs).2))
      fun h => (.list (h.newList (vs.map ρ.value)).1, (h.newList (vs.map ρ.value)).2) :=
  (makes_newList vs).map fun _ => rfl

theorem makes_dictValue (es : List (Value × Value)) :
    Makes ρ final old ρ.value (fun h => (.dict (h.newDict es).1, (h.newDict es).2))
      fun h => (.dict (h.newDict (es.map ρ.entry)).1, (h.newDict (es.map ρ.entry)).2) :=
  (makes_newDict es).map fun _ => rfl

theorem makes_setValue (vs : List Value) :
    Makes ρ final old ρ.value (fun h => (.set (h.newSet vs).1, (h.newSet vs).2))
      fun h => (.set (h.newSet (vs.map ρ.value)).1, (h.newSet (vs.map ρ.value)).2) :=
  (makes_newSet vs).map fun _ => rfl

mutual

theorem makes_thaw {d : Datum} (hd : d.Inert) : Makes ρ final old ρ.value (·.thaw d) (·.thaw d) := by
  match d, hd with
  | .atom a, _ => exact Makes.pure (Value.atom a)
  | .list ds, .list hds => exact (makes_thawAll hds).bind _ makes_listValue
  | .tuple ds, .tuple hds =>
    exact (makes_thawAll hds).map fun vs => (Renaming.value_tuple vs).symm
  | .dict es, .dict hes hes' => exact (makes_thawEntries hes hes').bind _ makes_dictValue
  | .set ds, .set hds => exact (makes_thawAll hds).bind _ makes_setValue

theorem makes_thawAll {ds : List Datum} (hds : ∀ d ∈ ds, d.Inert) :
    Makes ρ final old (List.map ρ.value) (·.thawAll ds) (·.thawAll ds) := by
  match ds with
  | [] => exact Makes.pure []
  | d :: ds =>
    obtain ⟨hd, hds⟩ := List.forall_mem_cons.mp hds
    refine (makes_thaw hd).bind (fun v h => (v :: (h.thawAll ds).1, (h.thawAll ds).2)) fun v => ?_
    exact (makes_thawAll hds).map fun _ => rfl

theorem makes_thawEntries {es : List (Datum × Datum)} (hes : ∀ e ∈ es, e.1.Inert)
    (hes' : ∀ e ∈ es, e.2.Inert) :
    Makes ρ final old (List.map ρ.entry) (·.thawEntries es) (·.thawEntries es) := by
  match es with
  | [] => exact Makes.pure []
  | (k, v) :: es =>
    obtain ⟨hk, hes⟩ := List.forall_mem_cons.mp hes
    obtain ⟨hv, hes'⟩ := List.forall_mem_cons.mp hes'
    have hentry : Makes ρ final old ρ.entry (fun h =>
        (((h.thaw k).1, ((h.thaw k).2.thaw v).1), ((h.thaw k).2.thaw v).2)) (fun h =>
        (((h.thaw k).1, ((h.thaw k).2.thaw v).1), ((h.thaw k).2.thaw v).2)) :=
      (makes_thaw hk).bind (fun k h => ((k, (h.thaw v).1), (h.thaw v).2)) fun k =>
        (makes_thaw hv).map fun _ => rfl
    refine hentry.bind (fun e h => (e :: (h.thawEntries es).1, (h.thawEntries es).2)) fun e => ?_
    exact (makes_thawEntries hes hes').map fun _ => rfl

end

end

end Heap

end EventTally
