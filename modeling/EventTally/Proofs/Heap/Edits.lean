import EventTally.Eval.Collection
import EventTally.Proofs.Heap.Grown
import EventTally.Proofs.Keyed
import EventTally.Proofs.Renaming.Closed

/-! # Changes in place

Putting an element into a list or dict and deleting one change that list or dict and nothing else. So
after any sequence of such changes, with new objects made in between, every other object is as it was.
-/

namespace EventTally.Heap

variable {h₀ h h' h'' : Heap} {u v k elem x : Value} {elems : List Value} {T : Value → Prop}

/-- What becomes of a heap when elements of values in `T` are put and deleted and new objects are made,
in any order. -/
inductive Edited (T : Value → Prop) (h : Heap) : Heap → Prop
  | refl : Edited T h h
  | put {h' h'' : Heap} {v k elem : Value} (hedit : Edited T h h') (hv : T v)
      (hput : h'.put v k elem = .ok h'') : Edited T h h''
  | remove {h' h'' : Heap} {v k x : Value} (hedit : Edited T h h') (hv : T v)
      (hremove : h'.remove v k = .ok (x, h'')) : Edited T h h''
  | grow {h' h'' : Heap} (hedit : Edited T h h') (hgrown : h'.Grown h'') : Edited T h h''

/-- Nothing but the value is changed. -/
structure Touches (v : Value) (h h' : Heap) : Prop where
  lists : ∀ i, v ≠ .list ⟨i⟩ → h'.lists[i]? = h.lists[i]?
  dicts : ∀ i, v ≠ .dict ⟨i⟩ → h'.dicts[i]? = h.dicts[i]?
  sets : h'.sets = h.sets
  closures : h'.closures = h.closures

/-- The elements of a collection, those of a dict being its entries, whatever order they come in. -/
def held (h : Heap) : Value → List Value
  | .tuple vs => vs
  | .list r => h.elems r
  | .dict r => (h.entries r).map fun e => .tuple [e.1, e.2]
  | .set r => h.members r
  | _ => []

/-- The value is a tuple, or a list, dict or set that is in the second heap and not in the first. -/
inductive NewSince (h₀ h : Heap) : Value → Prop
  | tuple (vs : List Value) : NewSince h₀ h (.tuple vs)
  | list {r : ListRef} (hnew : h₀.lists.size ≤ r.id) (hr : r.id < h.lists.size) : NewSince h₀ h (.list r)
  | dict {r : DictRef} (hnew : h₀.dicts.size ≤ r.id) (hr : r.id < h.dicts.size) : NewSince h₀ h (.dict r)
  | set {r : SetRef} (hnew : h₀.sets.size ≤ r.id) (hr : r.id < h.sets.size) : NewSince h₀ h (.set r)

namespace NewSince

theorem grow (hu : NewSince h₀ h u) (hgrown : h.Grown h') : NewSince h₀ h' u := by
  cases hu with
  | tuple vs => exact .tuple vs
  | list hnew hr => exact .list hnew (hr.trans_le hgrown.lists.size_le)
  | dict hnew hr => exact .dict hnew (hr.trans_le hgrown.dicts.size_le)
  | set hnew hr => exact .set hnew (hr.trans_le hgrown.sets.size_le)

theorem since (hu : NewSince h h' u) (hgrown : h₀.Grown h) : NewSince h₀ h' u := by
  cases hu with
  | tuple vs => exact .tuple vs
  | list hnew hr => exact .list (hgrown.lists.size_le.trans hnew) hr
  | dict hnew hr => exact .dict (hgrown.dicts.size_le.trans hnew) hr
  | set hnew hr => exact .set (hgrown.sets.size_le.trans hnew) hr

theorem ne_of_new (hu : NewSince h₀ h u) (hv : NewSince h h' v) (hne : ∀ vs, v ≠ .tuple vs) :
    u ≠ v := by
  rintro rfl
  cases hu with
  | tuple vs => exact hne vs rfl
  | list _ hr =>
    cases hv with
    | list hnew _ => exact Nat.not_le.mpr hr hnew
  | dict _ hr =>
    cases hv with
    | dict hnew _ => exact Nat.not_le.mpr hr hnew
  | set _ hr =>
    cases hv with
    | set hnew _ => exact Nat.not_le.mpr hr hnew

theorem ne_of_hasValue (hu : NewSince h₀ h u) (hv : h₀.HasValue v) (hne : ∀ vs, u ≠ .tuple vs) :
    u ≠ v := by
  rintro rfl
  cases hu with
  | tuple vs => exact hne vs rfl
  | list hnew _ =>
    cases hv with
    | list hr => exact Nat.not_le.mpr hr hnew
  | dict hnew _ =>
    cases hv with
    | dict hr => exact Nat.not_le.mpr hr hnew
  | set hnew _ =>
    cases hv with
    | set hr => exact Nat.not_le.mpr hr hnew

end NewSince

theorem touches_setEntries (r : DictRef) (es : List (Value × Value)) :
    Touches (.dict r) h (h.setEntries r es) := by
  refine ⟨fun _ _ => rfl, fun i hi => ?_, rfl, rfl⟩
  have hne : r.id ≠ i := by
    rintro rfl
    exact hi rfl
  exact Array.getElem?_setIfInBounds_ne hne

theorem touches_modify (r : ListRef) (f : ListCell → ListCell) :
    Touches (.list r) h { h with lists := h.lists.modify r.id f } := by
  refine ⟨fun i hi => ?_, fun _ _ => rfl, rfl, rfl⟩
  have hne : r.id ≠ i := by
    rintro rfl
    exact hi rfl
  dsimp only
  rw [Array.getElem?_modify, if_neg hne]

theorem touches_of_put (hput : h.put v k elem = .ok h') : Touches v h h' := by
  unfold put at hput
  cases v with
  | dict r =>
    dsimp only at hput
    cases hes : h.insertEntry k elem (h.entries r) with
    | error e =>
      rw [hes] at hput
      cases hput
    | ok es =>
      rw [hes] at hput
      cases hput
      exact touches_setEntries r es
  | list r =>
    dsimp only at hput
    cases hi : position k (h.elems r).length with
    | error e =>
      rw [hi] at hput
      cases hput
    | ok i =>
      rw [hi] at hput
      cases hput
      exact touches_modify r _
  | _ => cases hput

theorem touches_of_remove (hremove : h.remove v k = .ok (x, h')) : Touches v h h' := by
  unfold remove at hremove
  cases v with
  | dict r =>
    dsimp only at hremove
    split at hremove
    · cases hremove
      exact touches_setEntries r _
    · cases hremove
  | list r =>
    dsimp only at hremove
    cases hi : position k (h.elems r).length with
    | error e =>
      rw [hi] at hremove
      cases hremove
    | ok i =>
      rw [hi] at hremove
      cases hremove
      exact touches_modify r _
  | _ => cases hremove

namespace Edited

theorem lists (hedit : Edited T h h') {i : Nat} (hT : ¬ T (.list ⟨i⟩)) {cell : ListCell}
    (hcell : h.lists[i]? = some cell) : h'.lists[i]? = some cell := by
  induction hedit with
  | refl => exact hcell
  | put _ hv hput ih =>
    rw [(touches_of_put hput).lists i fun heq => hT (heq ▸ hv), ih]
  | remove _ hv hremove ih =>
    rw [(touches_of_remove hremove).lists i fun heq => hT (heq ▸ hv), ih]
  | grow _ hgrown ih => exact hgrown.lists i _ ih

theorem dicts (hedit : Edited T h h') {i : Nat} (hT : ¬ T (.dict ⟨i⟩)) {es : List (Value × Value)}
    (hes : h.dicts[i]? = some es) : h'.dicts[i]? = some es := by
  induction hedit with
  | refl => exact hes
  | put _ hv hput ih =>
    rw [(touches_of_put hput).dicts i fun heq => hT (heq ▸ hv), ih]
  | remove _ hv hremove ih =>
    rw [(touches_of_remove hremove).dicts i fun heq => hT (heq ▸ hv), ih]
  | grow _ hgrown ih => exact hgrown.dicts i _ ih

theorem sets (hedit : Edited T h h') : Grows h.sets h'.sets := by
  induction hedit with
  | refl => exact .refl _
  | put _ _ hput ih => exact (touches_of_put hput).sets ▸ ih
  | remove _ _ hremove ih => exact (touches_of_remove hremove).sets ▸ ih
  | grow _ hgrown ih => exact ih.trans hgrown.sets

theorem closures (hedit : Edited T h h') : Grows h.closures h'.closures := by
  induction hedit with
  | refl => exact .refl _
  | put _ _ hput ih => exact (touches_of_put hput).closures ▸ ih
  | remove _ _ hremove ih => exact (touches_of_remove hremove).closures ▸ ih
  | grow _ hgrown ih => exact ih.trans hgrown.closures

theorem grown (hedit : Edited T h h') (hgrown : h₀.Grown h) (hT : ∀ v, T v → NewSince h₀ h v) :
    h₀.Grown h' := by
  refine ⟨?_, ?_, hgrown.sets.trans hedit.sets, hgrown.closures.trans hedit.closures⟩
  · intro i cell hcell
    refine hedit.lists (fun hv => ?_) (hgrown.lists i cell hcell)
    obtain ⟨hlt, -⟩ := Array.getElem?_eq_some_iff.mp hcell
    cases hT _ hv with
    | list hnew _ => exact Nat.not_le.mpr hlt hnew
  · intro i es hes
    refine hedit.dicts (fun hv => ?_) (hgrown.dicts i es hes)
    obtain ⟨hlt, -⟩ := Array.getElem?_eq_some_iff.mp hes
    cases hT _ hv with
    | dict hnew _ => exact Nat.not_le.mpr hlt hnew

theorem held (hedit : Edited T h h') (hu : NewSince h₀ h u) (hT : (∀ vs, u ≠ .tuple vs) → ¬ T u) :
    h'.held u = h.held u := by
  cases hu with
  | tuple vs => rfl
  | @list r _ hr =>
    have hcell := hedit.lists (hT nofun) (Array.getElem?_eq_getElem hr)
    have helems : h'.elems r = h.elems r := by
      unfold Heap.elems Heap.list
      rw [hcell, Array.getElem?_eq_getElem hr]
    exact helems
  | @dict r _ hr =>
    have hes := hedit.dicts (hT nofun) (Array.getElem?_eq_getElem hr)
    have hentries : h'.entries r = h.entries r := by
      unfold Heap.entries
      rw [hes, Array.getElem?_eq_getElem hr]
    rw [Heap.held, Heap.held, hentries]
  | @set r _ hr =>
    have hmembers : h'.members r = h.members r := by
      unfold Heap.members
      rw [hedit.sets r.id _ (Array.getElem?_eq_getElem hr), Array.getElem?_eq_getElem hr]
    exact hmembers

end Edited

end EventTally.Heap
