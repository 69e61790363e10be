import EventTally.Proofs.Eval.Formula
import EventTally.Proofs.Scope

/-! # Heaps with new objects

Binding a name changes a layer and no object, so it does not change what values show. A heap has grown
from another if every object of the other is still there, whatever happened to the layers. What a value
shows, and what a slot of a list holds, stays as it is. A collection that shows a datum has elements
that show its elements.
-/

namespace EventTally.Heap

variable {h h' h'' : Heap} {v : Value} {d : Datum}

/-- Every object is still there unchanged. -/
structure Grown (h h' : Heap) : Prop where
  lists : Grows h.lists h'.lists
  dicts : Grows h.dicts h'.dicts
  sets : Grows h.sets h'.sets
  closures : Grows h.closures h'.closures

namespace Grown

theorem refl (h : Heap) : h.Grown h := ⟨.refl _, .refl _, .refl _, .refl _⟩

theorem trans (h₁ : h.Grown h') (h₂ : h'.Grown h'') : h.Grown h'' :=
  ⟨h₁.lists.trans h₂.lists, h₁.dicts.trans h₂.dicts, h₁.sets.trans h₂.sets,
    h₁.closures.trans h₂.closures⟩

theorem bind (h : Heap) (s : ScopeRef) (x : String) (v : Value) : h.Grown (h.bind s x v) :=
  ⟨.refl _, .refl _, .refl _, .refl _⟩

end Grown

theorem Extends.grown (hext : h.Extends h') : h.Grown h' :=
  ⟨hext.lists, hext.dicts, hext.sets, hext.closures⟩

mutual

theorem view_layers (h : Heap) (layers : Array Layer) (lens : Lens) (c : Code) :
    c.view { h with layers } lens = c.view h lens := by
  match c with
  | .value v => rfl
  | .form elems =>
    rw [Code.view, Code.view]
    exact congrArg Datum.list (views_layers h layers lens elems)
  | .slot r i => rfl

theorem views_layers (h : Heap) (layers : Array Layer) (lens : Lens) (cs : List Code) :
    Code.views { h with layers } lens cs = Code.views h lens cs := by
  match cs with
  | [] => rfl
  | c :: cs => rw [Code.views, Code.views, view_layers h layers lens c, views_layers h layers lens cs]

end

theorem lens_layers (h : Heap) (layers : Array Layer) (n : Nat) :
    ({ h with layers } : Heap).lens n = h.lens n := by
  induction n with
  | zero => rfl
  | succ n ih =>
    unfold lens
    rw [ih]
    simp only [view_layers]
    rfl

theorem Shows.grown (hv : h.Shows v d) (hgrown : h.Grown h') : h'.Shows v d := by
  intro h'' hext n hn
  -- The heap seen with the old layers extends the old heap.
  have hold : h.Extends { h'' with layers := h.layers } :=
    ⟨hgrown.lists.trans hext.lists, hgrown.dicts.trans hext.dicts, hgrown.sets.trans hext.sets,
      hgrown.closures.trans hext.closures, .refl _⟩
  have hlists := hgrown.lists.size_le
  have hdicts := hgrown.dicts.size_le
  have hsets := hgrown.sets.size_le
  have hclosures := hgrown.closures.size_le
  rw [← lens_layers h'' h.layers n]
  refine hv _ hold n ?_
  unfold objectCount at hn ⊢
  omega

theorem ShowsEntry.grown {e : Value × Value} {e' : Datum × Datum} (he : h.ShowsEntry e e')
    (hgrown : h.Grown h') : h'.ShowsEntry e e' :=
  ⟨he.1.grown hgrown, he.2.grown hgrown⟩

theorem shows_of_views {vs : List Value} {ds : List Datum}
    (hviews : ∀ h', h.Extends h' → ∀ n, h.objectCount ≤ n → vs.map (Value.view (h'.lens n)) = ds) :
    List.Forall₂ h.Shows vs ds := by
  induction vs generalizing ds with
  | nil =>
    cases hviews h (.refl h) _ (Nat.le_refl _)
    exact .nil
  | cons v vs ih =>
    cases ds with
    | nil => cases hviews h (.refl h) _ (Nat.le_refl _)
    | cons d ds =>
      have hcons := fun h' hext n hn => List.cons_eq_cons.mp (hviews h' hext n hn)
      exact .cons (fun h' hext n hn => (hcons h' hext n hn).1)
        (ih fun h' hext n hn => (hcons h' hext n hn).2)

theorem Shows.tuple {vs : List Value} {ds : List Datum} (hv : h.Shows (.tuple vs) (.tuple ds)) :
    List.Forall₂ h.Shows vs ds := by
  refine shows_of_views fun h' hext n hn => ?_
  have hview := hv h' hext n hn
  rw [Value.view, Value.views_eq_map] at hview
  exact Datum.tuple.inj hview

theorem Extends.elems (hext : h.Extends h') {r : ListRef} (hr : r.id < h.lists.size) :
    h'.elems r = h.elems r := by
  have hold := Array.getElem?_eq_getElem hr
  unfold Heap.elems Heap.list
  rw [hold, hext.lists r.id _ hold]

theorem Extends.members (hext : h.Extends h') {r : SetRef} (hr : r.id < h.sets.size) :
    h'.members r = h.members r := by
  have hold := Array.getElem?_eq_getElem hr
  unfold Heap.members
  rw [hold, hext.sets r.id _ hold]

theorem Shows.elems {r : ListRef} {ds : List Datum} (hr : h.Shows (.list r) (.list ds)) :
    List.Forall₂ h.Shows (h.elems r) ds := by
  refine shows_of_views fun h' hext n hn => ?_
  have hview : Datum.list _ = .list ds := hr h' hext (n + 1) (by omega)
  by_cases hlt : r.id < h.lists.size
  · rw [← Datum.list.inj hview, hext.elems hlt]
  · have hnone : h.elems r = [] := by
      simp [Heap.elems, Heap.list, Array.getElem?_eq_none (Nat.le_of_not_lt hlt)]
    have hview₀ : Datum.list _ = .list ds := hr h (.refl h) (h.objectCount + 1) (by omega)
    rw [← Datum.list.inj hview₀, hnone]
    rfl

theorem Shows.members {r : SetRef} {ds : List Datum} (hr : h.Shows (.set r) (.set ds)) :
    List.Forall₂ h.Shows (h.members r) ds := by
  refine shows_of_views fun h' hext n hn => ?_
  have hview : Datum.set _ = .set ds := hr h' hext (n + 1) (by omega)
  by_cases hlt : r.id < h.sets.size
  · rw [← Datum.set.inj hview, hext.members hlt]
  · have hnone : h.members r = [] := by
      simp [Heap.members, Array.getElem?_eq_none (Nat.le_of_not_lt hlt)]
    have hview₀ : Datum.set _ = .set ds := hr h (.refl h) (h.objectCount + 1) (by omega)
    rw [← Datum.set.inj hview₀, hnone]
    rfl

/-- What is read at a place shows the datum, now and when the heap has grown. -/
def Reads (h : Heap) (p : Place) (d : Datum) : Prop := ∀ h', h.Grown h' → h'.Shows (h'.read p) d

theorem Reads.grown {p : Place} (hp : h.Reads p d) (hgrown : h.Grown h') : h'.Reads p d :=
  fun _ hgrown' => hp _ (hgrown.trans hgrown')

theorem Reads.shows {p : Place} (hp : h.Reads p d) : h.Shows (h.read p) d := hp h (.refl h)

theorem Shows.reads (hv : h.Shows v d) : h.Reads (.value v) d := fun _ hgrown => hv.grown hgrown

theorem reads_values {vs : List Value} {ds : List Datum} (hvs : List.Forall₂ h.Shows vs ds) :
    List.Forall₂ h.Reads (vs.map .value) ds := by
  rw [List.forall₂_map_left_iff]
  exact hvs.imp fun _ _ hv => hv.reads

theorem slot_eq_elems {r : ListRef} {i : Nat} {v : Value} (hi : (h.elems r)[i]? = some v) :
    h.slot r i = v := by
  unfold Heap.elems at hi
  dsimp only at hi
  rw [List.getElem?_take] at hi
  split at hi
  · rw [Array.getElem?_toList] at hi
    rw [Heap.slot, hi]
    rfl
  · cases hi

theorem Grown.elems_getElem? (hgrown : h.Grown h') {r : ListRef} {i : Nat} {v : Value}
    (hi : (h.elems r)[i]? = some v) : (h'.elems r)[i]? = some v := by
  have hlt : r.id < h.lists.size := by
    by_contra hge
    simp [Heap.elems, Heap.list, Array.getElem?_eq_none (Nat.le_of_not_lt hge)] at hi
  have hold := Array.getElem?_eq_getElem hlt
  have hsame : h'.elems r = h.elems r := by
    unfold Heap.elems Heap.list
    rw [hold, hgrown.lists r.id _ hold]
  rw [hsame, hi]

theorem Shows.places {r : ListRef} {ds : List Datum} (hr : h.Shows (.list r) (.list ds)) :
    List.Forall₂ h.Reads (h.places r) ds := by
  have helems := hr.elems
  have hlength := helems.length_eq
  rw [List.forall₂_iff_get]
  refine ⟨by simp [Heap.places, hlength], fun i hi hi' => ?_⟩
  have hlt : i < (h.elems r).length := by omega
  have hshows := (List.forall₂_iff_get.mp helems).2 i hlt hi'
  have hget := List.getElem?_eq_getElem hlt
  intro h' hgrown
  have hplace : (h.places r).get ⟨i, hi⟩ = Place.slot r i := by simp [Heap.places]
  rw [hplace, Heap.read, slot_eq_elems (hgrown.elems_getElem? hget)]
  exact Shows.grown hshows hgrown

end EventTally.Heap
