import Mathlib.Order.Monotone.Basic
import EventTally.Heap
import EventTally.Proofs.Datum.Shape

/-! # Values that end

Following the references in a value ends if no object contains itself. How many steps that takes depends
only on the objects that are reached, and it is never more than one for each object and one for a
reference to no object. So a value that ends is seen in the same way however far beyond that references
are followed.
-/

namespace EventTally

variable {h : Heap} {n m : Nat} {r : Ref}

theorem Value.refsAll_eq (vs : List Value) : refsAll vs = vs.flatMap refs := by
  induction vs with
  | nil => rfl
  | cons v vs ih => rw [refsAll, ih, List.flatMap_cons]

theorem Value.views_eq_map (lens : Lens) (vs : List Value) : views lens vs = vs.map (view lens) := by
  induction vs with
  | nil => rfl
  | cons v vs ih => rw [views, ih, List.map_cons]

theorem Code.views_eq_map (h : Heap) (lens : Lens) (cs : List Code) :
    views h lens cs = cs.map (view h lens) := by
  induction cs with
  | nil => rfl
  | cons c cs ih => rw [views, ih, List.map_cons]

theorem Code.refsAll_eq (h : Heap) (cs : List Code) : refsAll h cs = cs.flatMap (refs h) := by
  induction cs with
  | nil => rfl
  | cons c cs ih => rw [refsAll, ih, List.flatMap_cons]

namespace Heap

/-- The references in a value end within `n` steps. -/
def Ends (h : Heap) (n : Nat) (refs : List Ref) : Prop := ∀ r ∈ refs, h.ends n r = true

theorem ends_succ_iff : h.ends (n + 1) r = true ↔ h.Ends n (h.behind r) := by
  rw [ends, List.all_eq_true]
  rfl

theorem ends_succ (hr : h.ends n r = true) : h.ends (n + 1) r = true := by
  induction n generalizing r with
  | zero => cases hr
  | succ n ih =>
    rw [ends_succ_iff] at hr ⊢
    intro r' hr'
    exact ih (hr r' hr')

theorem ends_mono (hnm : n ≤ m) (hr : h.ends n r = true) : h.ends m r = true := by
  induction hnm with
  | refl => exact hr
  | step _ ih => exact ends_succ ih

theorem Ends.mono {refs : List Ref} (hnm : n ≤ m) (hends : h.Ends n refs) : h.Ends m refs :=
  fun r hr => ends_mono hnm (hends r hr)

theorem Ends.append {refs refs' : List Ref} :
    h.Ends n (refs ++ refs') ↔ h.Ends n refs ∧ h.Ends n refs' :=
  List.forall_mem_append

def objects (h : Heap) : List Ref :=
  (List.range h.lists.size).map (fun i => .list ⟨i⟩) ++
    (List.range h.dicts.size).map (fun i => .dict ⟨i⟩) ++
    (List.range h.sets.size).map (fun i => .set ⟨i⟩) ++
    (List.range h.closures.size).map (fun i => .closure ⟨i⟩)

theorem length_objects (h : Heap) : h.objects.length = h.objectCount := by
  simp [objects, objectCount, Nat.add_assoc]

theorem behind_eq_nil (hr : r ∉ h.objects) : h.behind r = [] := by
  cases r with
  | list r =>
    have hnone : h.lists.size ≤ r.id := by
      by_contra hlt
      exact hr (by simpa [objects] using ⟨r.id, Nat.lt_of_not_le hlt, rfl⟩)
    simp [behind, elems, list, Array.getElem?_eq_none hnone, Value.refsAll]
  | dict r =>
    have hnone : h.dicts.size ≤ r.id := by
      by_contra hlt
      exact hr (by simpa [objects] using ⟨r.id, Nat.lt_of_not_le hlt, rfl⟩)
    simp [behind, entries, Array.getElem?_eq_none hnone]
  | set r =>
    have hnone : h.sets.size ≤ r.id := by
      by_contra hlt
      exact hr (by simpa [objects] using ⟨r.id, Nat.lt_of_not_le hlt, rfl⟩)
    simp [behind, members, Array.getElem?_eq_none hnone, Value.refsAll]
  | closure r =>
    have hnone : h.closures.size ≤ r.id := by
      by_contra hlt
      exact hr (by simpa [objects] using ⟨r.id, Nat.lt_of_not_le hlt, rfl⟩)
    simp [behind, closure, Array.getElem?_eq_none hnone, Code.refs, Value.refs]

/-- The objects from which following references ends within `n` steps. -/
def ending (h : Heap) (n : Nat) : List Ref := h.objects.filter (h.ends n)

theorem ending_sublist (h : Heap) (n : Nat) : (h.ending n).Sublist (h.ending (n + 1)) :=
  List.monotone_filter_right _ fun _ hr => ends_succ hr

theorem ends_of_length_eq (hlength : (h.ending (n + 1)).length = (h.ending (n + 2)).length)
    (hr : h.ends (n + 2) r = true) : h.ends (n + 1) r = true := by
  by_cases hmem : r ∈ h.objects
  · have heq := (h.ending_sublist (n + 1)).eq_of_length hlength
    have hend : r ∈ h.ending (n + 2) := List.mem_filter.mpr ⟨hmem, hr⟩
    rw [← heq] at hend
    exact (List.mem_filter.mp hend).2
  · rw [ends_succ_iff, behind_eq_nil hmem]
    exact fun _ hnil => absurd hnil List.not_mem_nil

theorem ending_stable (hlength : (h.ending (n + 1)).length = (h.ending (n + 2)).length) :
    (h.ending (n + 2)).length = (h.ending (n + 3)).length := by
  refine congrArg List.length (List.filter_congr fun r _ => ?_)
  rw [Bool.eq_iff_iff]
  refine ⟨ends_succ, fun hr => ?_⟩
  rw [ends_succ_iff] at hr ⊢
  exact fun r' hr' => ends_of_length_eq hlength (hr r' hr')

theorem length_ending (hn : h.objectCount ≤ n) :
    (h.ending (n + 1)).length = (h.ending (h.objectCount + 1)).length := by
  refine Nat.stabilises_of_monotone (f := fun k => (h.ending (k + 1)).length) ?_ ?_ ?_ hn
  · exact monotone_nat_of_le_succ fun k => (h.ending_sublist (k + 1)).length_le
  · intro k
    rw [← h.length_objects]
    exact List.length_filter_le _ _
  · exact fun k => ending_stable

theorem ends_objectCount (hr : h.ends n r = true) : h.ends (h.objectCount + 1) r = true := by
  induction n with
  | zero => cases hr
  | succ n ih =>
    by_cases hn : n ≤ h.objectCount
    · exact ends_mono (Nat.succ_le_succ hn) hr
    · obtain ⟨k, rfl⟩ : ∃ k, n = k + 1 := ⟨n - 1, by omega⟩
      have hk : h.objectCount ≤ k := by omega
      have hlength : (h.ending (k + 1)).length = (h.ending (k + 2)).length :=
        (length_ending hk).trans (length_ending (Nat.le_succ_of_le hk)).symm
      exact ih (ends_of_length_eq hlength hr)

theorem isFinite_iff {v : Value} : h.isFinite v = true ↔ ∃ n, h.Ends n v.refs := by
  rw [isFinite, List.all_eq_true]
  exact ⟨fun hall => ⟨_, hall⟩, fun ⟨_, hn⟩ r hr => ends_objectCount (hn r hr)⟩

end Heap

def Lens.see (lens : Lens) : Ref → Datum
  | .list r => lens.list r
  | .dict r => lens.dict r
  | .set r => lens.set r
  | .closure r => lens.closure r

section

variable {lens lens' : Lens}

mutual

theorem Value.view_congr {v : Value} (h : ∀ r ∈ v.refs, lens.see r = lens'.see r) :
    v.view lens = v.view lens' := by
  match v with
  | .atom a => rfl
  | .builtin b => rfl
  | .tuple vs => exact congrArg Datum.tuple (Value.views_congr h)
  | .list r => exact h (.list r) (List.mem_singleton_self _)
  | .dict r => exact h (.dict r) (List.mem_singleton_self _)
  | .set r => exact h (.set r) (List.mem_singleton_self _)
  | .closure r => exact h (.closure r) (List.mem_singleton_self _)

theorem Value.views_congr {vs : List Value} (h : ∀ r ∈ Value.refsAll vs, lens.see r = lens'.see r) :
    Value.views lens vs = Value.views lens' vs := by
  match vs with
  | [] => rfl
  | v :: vs =>
    obtain ⟨hv, hvs⟩ := List.forall_mem_append.mp h
    rw [Value.views, Value.views, Value.view_congr hv, Value.views_congr hvs]

end

mutual

theorem Code.view_congr (h : Heap) {c : Code} (hc : ∀ r ∈ c.refs h, lens.see r = lens'.see r) :
    c.view h lens = c.view h lens' := by
  match c with
  | .value v => exact Value.view_congr hc
  | .form cs => exact congrArg Datum.list (Code.views_congr h hc)
  | .slot r i => exact Value.view_congr hc

theorem Code.views_congr (h : Heap) {cs : List Code}
    (hcs : ∀ r ∈ Code.refsAll h cs, lens.see r = lens'.see r) :
    Code.views h lens cs = Code.views h lens' cs := by
  match cs with
  | [] => rfl
  | c :: cs =>
    obtain ⟨hc, hcs⟩ := List.forall_mem_append.mp hcs
    rw [Code.views, Code.views, Code.view_congr h hc, Code.views_congr h hcs]

end

end

namespace Heap

theorem see_of_ends (hr : h.ends n r = true) (hnm : n ≤ m) : (h.lens m).see r = (h.lens n).see r := by
  induction n generalizing m r with
  | zero => cases hr
  | succ n ih =>
    obtain ⟨m, rfl⟩ : ∃ k, m = k + 1 := ⟨m - 1, by omega⟩
    have hbehind : ∀ r' ∈ h.behind r, (h.lens m).see r' = (h.lens n).see r' :=
      fun r' hr' => ih (ends_succ_iff.mp hr r' hr') (Nat.le_of_succ_le_succ hnm)
    cases r with
    | list r =>
      rw [behind, Value.refsAll_eq] at hbehind
      refine congrArg Datum.list (List.map_congr_left fun v hv => Value.view_congr fun r' hr' => ?_)
      exact hbehind r' (List.mem_flatMap_of_mem hv hr')
    | dict r =>
      refine congrArg Datum.dict (List.map_congr_left fun e he => Prod.ext ?_ ?_)
      · refine Value.view_congr fun r' hr' => hbehind r' ?_
        exact List.mem_flatMap_of_mem he (List.mem_append_left _ hr')
      · refine Value.view_congr fun r' hr' => hbehind r' ?_
        exact List.mem_flatMap_of_mem he (List.mem_append_right _ hr')
    | set r =>
      rw [behind, Value.refsAll_eq] at hbehind
      refine congrArg Datum.set (List.map_congr_left fun v hv => Value.view_congr fun r' hr' => ?_)
      exact hbehind r' (List.mem_flatMap_of_mem hv hr')
    | closure r =>
      obtain ⟨hpattern, hbody⟩ := List.forall_mem_append.mp hbehind
      have hview : (h.closure r).pattern.view h (h.lens m) = (h.closure r).pattern.view h (h.lens n) :=
        Code.view_congr h hpattern
      have hview' : (h.closure r).body.view h (h.lens m) = (h.closure r).body.view h (h.lens n) :=
        Code.view_congr h hbody
      unfold Lens.see lens
      dsimp only
      rw [hview, hview']

theorem view_of_ends {v : Value} (hv : h.Ends n v.refs) (hnm : n ≤ m) :
    v.view (h.lens m) = v.view (h.lens n) :=
  Value.view_congr fun r hr => see_of_ends (hv r hr) hnm

theorem datum_eq_view (h : Heap) (v : Value) : h.datum v = v.view (h.lens (h.viewDepth v)) := by
  cases v <;> rfl

theorem viewDepth_of_ends {v : Value} (hv : h.Ends n v.refs) : h.viewDepth v = h.objectCount + 1 :=
  if_pos (isFinite_iff.mpr ⟨n, hv⟩)

theorem viewDepth_of_not_ends {v : Value} (hv : ¬ ∃ n, h.Ends n v.refs) : h.viewDepth v = 0 :=
  if_neg fun hfinite => hv (isFinite_iff.mp hfinite)

theorem datum_of_ends {v : Value} (hv : h.Ends n v.refs) (hn : n ≤ m) : h.datum v = v.view (h.lens m) := by
  have hall : h.Ends (h.objectCount + 1) v.refs := fun r hr => ends_objectCount (hv r hr)
  rw [datum_eq_view, viewDepth_of_ends hv, ← view_of_ends hall (Nat.le_max_left _ m), view_of_ends hv hn,
    view_of_ends hv (hn.trans (Nat.le_max_right _ m))]

/-- The value is seen as the datum however far references are followed beyond `k` steps. -/
def SeenAs (h : Heap) (k : Nat) (v : Value) (d : Datum) : Prop := ∀ n, k ≤ n → v.view (h.lens n) = d

theorem exists_ends_all {α : Type} {f : α → List Ref} {as : List α}
    (hends : ∀ a ∈ as, ∃ n, h.Ends n (f a)) : ∃ n, h.Ends n (as.flatMap f) := by
  induction as with
  | nil => exact ⟨0, fun _ hnil => absurd hnil List.not_mem_nil⟩
  | cons a as ih =>
    obtain ⟨ha, has⟩ := List.forall_mem_cons.mp hends
    obtain ⟨n, hn⟩ := ha
    obtain ⟨n', hn'⟩ := ih has
    refine ⟨max n n', ?_⟩
    rw [List.flatMap_cons, Ends.append]
    exact ⟨hn.mono (Nat.le_max_left ..), hn'.mono (Nat.le_max_right ..)⟩

theorem exists_of_map_eq {α β : Type} {f : Nat → α → β} {k : Nat} {as : List α} {bs : List β}
    (hmap : ∀ n, k ≤ n → as.map (f n) = bs) {a : α} (ha : a ∈ as) :
    ∃ b ∈ bs, ∀ n, k ≤ n → f n a = b := by
  obtain ⟨i, hi, rfl⟩ := List.mem_iff_getElem.mp ha
  refine ⟨f k as[i], ?_, fun n hn => ?_⟩
  · rw [← hmap k (Nat.le_refl k)]
    exact List.mem_map_of_mem ha
  · have hlists : as.map (f n) = as.map (f k) := (hmap n hn).trans (hmap k (Nat.le_refl k)).symm
    exact List.map_inj_left.mp hlists _ ha

/-- What is seen in one way, as a value or as code, ends. -/
def EndsAs (h : Heap) (d : Datum) : Prop :=
  (∀ v k, h.SeenAs k v d → ∃ n, h.Ends n v.refs) ∧
    ∀ (c : Code) k, (∀ n, k ≤ n → c.view h (h.lens n) = d) → ∃ n, h.Ends n (c.refs h)

theorem exists_ends_of_views {vs : List Value} {ds : List Datum} {k : Nat}
    (hds : ∀ d ∈ ds, h.EndsAs d) (hviews : ∀ n, k ≤ n → vs.map (Value.view (h.lens n)) = ds) :
    ∃ n, h.Ends n (Value.refsAll vs) := by
  rw [Value.refsAll_eq]
  refine exists_ends_all fun v hv => ?_
  obtain ⟨d, hd, hseen⟩ := exists_of_map_eq hviews hv
  exact (hds d hd).1 v k hseen

theorem exists_ends_behind (hr : ∃ n, h.Ends n (h.behind r)) : ∃ n, h.Ends n [r] := by
  obtain ⟨n, hn⟩ := hr
  refine ⟨n + 1, fun r' hr' => ?_⟩
  rw [List.mem_singleton.mp hr', ends_succ_iff]
  exact hn

theorem endsAs_of_values {d : Datum} (hvalue : ∀ v k, h.SeenAs k v d → ∃ n, h.Ends n v.refs)
    (hform : ∀ ds, d = .list ds → ∀ x ∈ ds, h.EndsAs x) : h.EndsAs d := by
  refine ⟨hvalue, fun c k hc => ?_⟩
  cases c with
  | value v => exact hvalue v k hc
  | slot r i => exact hvalue (h.slot r i) k hc
  | form cs =>
    have hviews (n : Nat) (hn : k ≤ n) : Datum.list (Code.views h (h.lens n) cs) = d := hc n hn
    rw [Code.refs, Code.refsAll_eq]
    refine exists_ends_all fun c hmem => ?_
    have hlist := hviews k (Nat.le_refl k)
    have hmap (n : Nat) (hn : k ≤ n) : cs.map (Code.view h (h.lens n)) = Code.views h (h.lens k) cs := by
      rw [← Code.views_eq_map]
      exact Datum.list.inj ((hviews n hn).trans hlist.symm)
    obtain ⟨x, hx, hseen⟩ := exists_of_map_eq hmap hmem
    exact (hform _ hlist.symm x hx).2 c k hseen

theorem endsAs (h : Heap) (d : Datum) : h.EndsAs d := by
  induction d using Datum.parts_induction with
  | atom a =>
    refine endsAs_of_values (fun v k hv => ?_) nofun
    have hview := hv (k + 1) (Nat.le_succ k)
    cases v with
    | atom b => exact ⟨0, nofun⟩
    | _ => cases hview
  | list ds ih =>
    refine endsAs_of_values (fun v k hv => ?_) fun ds' heq => Datum.list.inj heq ▸ ih
    have hview := hv (k + 1) (Nat.le_succ k)
    cases v with
    | list r =>
      exact exists_ends_behind <| exists_ends_of_views ih fun n hn =>
        Datum.list.inj (hv (n + 1) (Nat.le_succ_of_le hn))
    | _ => cases hview
  | tuple ds ih =>
    refine endsAs_of_values (fun v k hv => ?_) nofun
    have hview := hv (k + 1) (Nat.le_succ k)
    cases v with
    | tuple vs =>
      refine exists_ends_of_views ih fun n (hn : k ≤ n) => ?_
      rw [← Value.views_eq_map]
      exact Datum.tuple.inj (hv n hn)
    | _ => cases hview
  | dict es ih ih' =>
    refine endsAs_of_values (fun v k hv => ?_) nofun
    have hview := hv (k + 1) (Nat.le_succ k)
    cases v with
    | dict r =>
      have hentries (n : Nat) (hn : k ≤ n) : (h.entries r).map (fun e =>
          (e.1.view (h.lens n), e.2.view (h.lens n))) = es :=
        Datum.dict.inj (hv (n + 1) (Nat.le_succ_of_le hn))
      refine exists_ends_behind (exists_ends_all fun e he => ?_)
      obtain ⟨x, hx, hseen⟩ := exists_of_map_eq hentries he
      obtain ⟨n, hkey⟩ := (ih x hx).1 e.1 k fun n hn => congrArg Prod.fst (hseen n hn)
      obtain ⟨n', hvalue⟩ := (ih' x hx).1 e.2 k fun n hn => congrArg Prod.snd (hseen n hn)
      exact ⟨max n n', Ends.append.mpr
        ⟨hkey.mono (Nat.le_max_left ..), hvalue.mono (Nat.le_max_right ..)⟩⟩
    | _ => cases hview
  | set ds ih =>
    refine endsAs_of_values (fun v k hv => ?_) nofun
    have hview := hv (k + 1) (Nat.le_succ k)
    cases v with
    | set r =>
      exact exists_ends_behind <| exists_ends_of_views ih fun n hn =>
        Datum.set.inj (hv (n + 1) (Nat.le_succ_of_le hn))
    | _ => cases hview
  | builtin name =>
    refine endsAs_of_values (fun v k hv => ?_) nofun
    have hview := hv (k + 1) (Nat.le_succ k)
    cases v with
    | builtin b => exact ⟨0, nofun⟩
    | _ => cases hview
  | closure id name pattern body ih ih' =>
    refine endsAs_of_values (fun v k hv => ?_) nofun
    have hview := hv (k + 1) (Nat.le_succ k)
    cases v with
    | closure r =>
      have hparts (n : Nat) (hn : k ≤ n) := Datum.closure.inj (hv (n + 1) (Nat.le_succ_of_le hn))
      obtain ⟨n, hpattern⟩ := ih.2 (h.closure r).pattern k fun n hn => (hparts n hn).2.2.1
      obtain ⟨n', hbody⟩ := ih'.2 (h.closure r).body k fun n hn => (hparts n hn).2.2.2
      exact exists_ends_behind ⟨max n n', Ends.append.mpr
        ⟨hpattern.mono (Nat.le_max_left ..), hbody.mono (Nat.le_max_right ..)⟩⟩
    | _ => cases hview

/-- A value that is seen in one way however far references are followed ends, so it is seen like that
as a whole. -/
theorem SeenAs.isFinite {v : Value} {k : Nat} {d : Datum} (hv : h.SeenAs k v d) : h.isFinite v = true :=
  isFinite_iff.mpr ((h.endsAs d).1 v k hv)

theorem SeenAs.datum {v : Value} {k : Nat} {d : Datum} (hv : h.SeenAs k v d) : h.datum v = d := by
  obtain ⟨n, hn⟩ := (h.endsAs d).1 v k hv
  rw [datum_of_ends hn (Nat.le_max_left n k)]
  exact hv _ (Nat.le_max_right n k)

end Heap

end EventTally
