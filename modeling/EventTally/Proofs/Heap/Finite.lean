import EventTally.Eval.Comparison
import EventTally.Proofs.Heap.Ending

/-! # Finite values

Work on finite values ends: they are seen as a whole, compared and encoded as the data that they are.
-/

namespace EventTally.Heap

variable {h : Heap} {v v' : Value}

theorem datum?_of_isFinite (hv : h.isFinite v = true) : h.datum? v = some (h.datum v) := if_pos hv

theorem datum?_eq_some {d : Datum} (hv : h.datum? v = some d) : h.isFinite v = true ∧ h.datum v = d := by
  unfold datum? at hv
  split at hv
  · next hfinite => exact ⟨hfinite, Option.some.inj hv⟩
  · cases hv

theorem exists_ends_refsAll {vs : List Value} :
    (∃ n, h.Ends n (Value.refsAll vs)) ↔ ∀ v ∈ vs, h.isFinite v = true := by
  rw [Value.refsAll_eq]
  constructor
  · rintro ⟨n, hn⟩ v hv
    exact isFinite_iff.mpr ⟨n, fun r hr => hn r (List.mem_flatMap_of_mem hv hr)⟩
  · exact fun hall => exists_ends_all fun v hv => isFinite_iff.mp (hall v hv)

theorem exists_ends_singleton {r : Ref} : (∃ n, h.Ends n [r]) ↔ ∃ n, h.Ends n (h.behind r) := by
  refine ⟨fun ⟨n, hn⟩ => ?_, exists_ends_behind⟩
  cases n with
  | zero => cases hn r (List.mem_singleton_self r)
  | succ n => exact ⟨n, ends_succ_iff.mp (hn r (List.mem_singleton_self r))⟩

theorem isFinite_tuple {vs : List Value} :
    h.isFinite (.tuple vs) = true ↔ ∀ v ∈ vs, h.isFinite v = true :=
  isFinite_iff.trans exists_ends_refsAll

theorem isFinite_list {r : ListRef} :
    h.isFinite (.list r) = true ↔ ∀ v ∈ h.elems r, h.isFinite v = true :=
  (isFinite_iff.trans exists_ends_singleton).trans exists_ends_refsAll

theorem isFinite_set {r : SetRef} :
    h.isFinite (.set r) = true ↔ ∀ v ∈ h.members r, h.isFinite v = true :=
  (isFinite_iff.trans exists_ends_singleton).trans exists_ends_refsAll

theorem map_view {vs : List Value} (hvs : ∀ v ∈ vs, h.isFinite v = true) :
    ∃ n, ∀ m, n ≤ m → vs.map (Value.view (h.lens m)) = vs.map h.datum := by
  obtain ⟨n, hn⟩ := exists_ends_refsAll.mpr hvs
  rw [Value.refsAll_eq] at hn
  refine ⟨n, fun m hm => List.map_congr_left fun v hv => ?_⟩
  exact (datum_of_ends (fun r hr => hn r (List.mem_flatMap_of_mem hv hr)) hm).symm

theorem datum_tuple {vs : List Value} (hvs : h.isFinite (.tuple vs) = true) :
    h.datum (.tuple vs) = .tuple (vs.map h.datum) := by
  obtain ⟨n, hn⟩ := isFinite_iff.mp hvs
  obtain ⟨m, hm⟩ := map_view (isFinite_tuple.mp hvs)
  rw [datum_of_ends hn (Nat.le_max_left n m), Value.view, Value.views_eq_map,
    hm _ (Nat.le_max_right n m)]

theorem datum_list {r : ListRef} (hr : h.isFinite (.list r) = true) :
    h.datum (.list r) = .list ((h.elems r).map h.datum) := by
  obtain ⟨n, hn⟩ := isFinite_iff.mp hr
  obtain ⟨m, hm⟩ := map_view (isFinite_list.mp hr)
  rw [datum_of_ends hn (Nat.le_succ_of_le (Nat.le_max_left n m)), ← hm _ (Nat.le_max_right n m)]
  rfl

theorem datum_set {r : SetRef} (hr : h.isFinite (.set r) = true) :
    h.datum (.set r) = .set ((h.members r).map h.datum) := by
  obtain ⟨n, hn⟩ := isFinite_iff.mp hr
  obtain ⟨m, hm⟩ := map_view (isFinite_set.mp hr)
  rw [datum_of_ends hn (Nat.le_succ_of_le (Nat.le_max_left n m)), ← hm _ (Nat.le_max_right n m)]
  rfl

theorem equal?_of_isFinite (hv : h.isFinite v = true) (hv' : h.isFinite v' = true) :
    h.equal? v v' = some (h.equal v v') := by
  rw [equal?, hv, hv']
  rfl

theorem encode?_eq_ok {j : Json} (hv : h.encode? v = some (.ok j)) :
    h.isFinite v = true ∧ Codec.encode (h.datum v) = .ok j := by
  unfold encode? at hv
  split at hv
  · next hfinite => exact ⟨hfinite, Option.some.inj hv⟩
  · split at hv
    · cases hv
    · cases hv

end EventTally.Heap

theorem EventTally.EvalM.run_datum {w : World} {v : Value} (hv : w.heap.isFinite v = true) :
    (datum v).run w = (.ok (w.heap.datum v), w) := by
  change (ofOption (w.heap.datum? v)).run w = _
  rw [Heap.datum?_of_isFinite hv]
  rfl
