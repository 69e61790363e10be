import EventTally.Proofs.Heap.Extends

/-! # Scopes in heaps that grow

A name that can be looked up keeps its value while the heap grows. A new layer with bindings of its
own shows these, and what its base shows under other names.
-/

namespace EventTally.Heap

variable {h h' : Heap} {s base : ScopeRef} {x : String} {v : Value}

theorem Extends.layer (hext : h.Extends h') (hs : s.id < h.layers.size) : h'.layer s = h.layer s := by
  have hold := Array.getElem?_eq_getElem hs
  unfold Heap.layer
  rw [hold, hext.layers s.id _ hold]

theorem lt_of_lookup (hv : h.lookup s x = some v) : s.id < h.layers.size := by
  by_contra hlt
  have hnone : h.layer s = { bindings := [], hidden := [], base := none } := by
    simp [Heap.layer, Array.getElem?_eq_none (Nat.le_of_not_lt hlt)]
  rw [Heap.lookup, Heap.localValue, Heap.hides, hnone] at hv
  cases hv

theorem Extends.lookup (hext : h.Extends h') (hv : h.lookup s x = some v) :
    h'.lookup s x = some v := by
  have hlayer := hext.layer (lt_of_lookup hv)
  fun_induction Heap.lookup h s x with
  | case1 s v' hlocal =>
    rw [Heap.lookup, Heap.localValue, hlayer]
    unfold Heap.localValue at hlocal
    rw [hlocal]
    exact hv
  | case2 s hlocal hhides => cases hv
  | case3 s hlocal hhides hbase => cases hv
  | case4 s hlocal hhides base hbase hlt ih =>
    have hrest := ih hv (hext.layer (lt_of_lookup hv))
    unfold Heap.localValue at hlocal
    unfold Heap.hides at hhides
    rw [Heap.lookup, Heap.localValue, Heap.hides, hlayer, hlocal, hbase]
    dsimp only
    rw [if_neg hhides, if_pos hlt]
    exact hrest
  | case5 s hlocal hhides base hbase hlt => cases hv

theorem Extends.bind (hext : h.Extends h') (hs : h.layers.size ≤ s.id) (x : String) (v : Value) :
    h.Extends (h'.bind s x v) := by
  refine ⟨hext.lists, hext.dicts, hext.sets, hext.closures, ?_⟩
  intro i l hl
  obtain ⟨hi, -⟩ := Array.getElem?_eq_some_iff.mp hl
  have hne : s.id ≠ i := by omega
  have hold := hext.layers i l hl
  simp [Heap.bind, Array.getElem?_modify, hne, hold]

theorem Extends.bindAll (hext : h.Extends h') (hs : h.layers.size ≤ s.id)
    (bindings : List (String × Value)) : h.Extends (h'.bindAll s bindings) := by
  induction bindings generalizing h' with
  | nil => exact hext
  | cons e bindings ih => exact ih (hext.bind hs e.1 e.2)

theorem layer_bind (hs : s.id < h.layers.size) (x : String) (v : Value) :
    (h.bind s x v).layer s = { h.layer s with
      bindings := Keyed.insert (· == x) x v (h.layer s).bindings } := by
  unfold Heap.layer Heap.bind
  rw [Array.getElem?_modify, if_pos rfl, Array.getElem?_eq_getElem hs]
  rfl

theorem layer_bindAll (hs : s.id < h.layers.size) (bindings : List (String × Value)) :
    (h.bindAll s bindings).layer s = { h.layer s with
      bindings := bindings.foldl (fun acc e => Keyed.insert (· == e.1) e.1 e.2 acc)
        (h.layer s).bindings } := by
  induction bindings generalizing h with
  | nil => rfl
  | cons e bindings ih =>
    have hs' : s.id < (h.bind s e.1 e.2).layers.size := by
      simpa [Heap.bind] using hs
    exact (ih hs').trans (by rw [layer_bind hs, List.foldl_cons])

/-- The heap with a new layer over `base` in which names are bound. -/
def frame (h : Heap) (base : ScopeRef) (bindings : List (String × Value)) : Heap :=
  (h.child base).2.bindAll (h.child base).1 bindings

theorem extends_frame (h : Heap) (base : ScopeRef) (bindings : List (String × Value)) :
    h.Extends (h.frame base bindings) :=
  (Extends.child h base).bindAll (Nat.le_refl _) bindings

theorem layer_frame (h : Heap) (base : ScopeRef) {bindings : List (String × Value)}
    (hnodup : (bindings.map Prod.fst).Nodup) :
    (h.frame base bindings).layer (h.child base).1 =
      { bindings, hidden := [], base := some base } := by
  have hnew : (h.child base).2.layer (h.child base).1 =
      { bindings := [], hidden := [], base := some base } := by
    simp [Heap.child, Heap.layer]
  have hs : (h.child base).1.id < (h.child base).2.layers.size := by
    simp [Heap.child]
  have hbindings := Keyed.ofEntries_of_nodup hnodup
  unfold Keyed.ofEntries at hbindings
  rw [frame, layer_bindAll hs, hnew]
  dsimp only
  rw [hbindings]

theorem lookup_frame_own (h : Heap) (base : ScopeRef) {bindings : List (String × Value)}
    (hnodup : (bindings.map Prod.fst).Nodup) (hx : Keyed.find? (· == x) bindings = some v) :
    (h.frame base bindings).lookup (h.child base).1 x = some v := by
  rw [Heap.lookup, Heap.localValue, layer_frame h base hnodup, hx]

theorem lookup_frame_base {bindings : List (String × Value)}
    (hnodup : (bindings.map Prod.fst).Nodup) (hx : Keyed.find? (· == x) bindings = none)
    (hv : h.lookup base x = some v) :
    (h.frame base bindings).lookup (h.child base).1 x = some v := by
  have hlt : base.id < (h.child base).1.id := lt_of_lookup hv
  have hbase := (h.extends_frame base bindings).lookup hv
  rw [Heap.lookup, Heap.localValue, Heap.hides, layer_frame h base hnodup, hx]
  simp [hlt, hbase]

end EventTally.Heap
