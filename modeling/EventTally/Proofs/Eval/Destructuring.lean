import EventTally.Proofs.Eval.Matching

/-! # What matching binds

Matching succeeds exactly on the values that are equal to an instance of the pattern, and binds the
assignment that makes it one (`EvalM.bind_matches_instances`).
-/

namespace EventTally

open Pattern (Assignment)

namespace Keyed

variable {α : Type} {x : String}

theorem find?_insertAll_of_notMem {bs : List (String × α)} (h : x ∉ bs.map Prod.fst)
    (entries : List (String × α)) :
    find? (· == x) (bs.foldl (fun acc b => insert (· == b.1) b.1 b.2 acc) entries) =
      find? (· == x) entries := by
  induction bs generalizing entries with
  | nil => rfl
  | cons b bs ih =>
    rw [List.map_cons, List.mem_cons, not_or] at h
    rw [List.foldl_cons, ih h.2, find?_insert_name, if_neg (by simpa using Ne.symm h.1)]

theorem find?_insertAll_of_mem {bs : List (String × α)} (hnodup : (bs.map Prod.fst).Nodup)
    {b : String × α} (hb : b ∈ bs) (entries : List (String × α)) :
    find? (· == b.1) (bs.foldl (fun acc b => insert (· == b.1) b.1 b.2 acc) entries) = some b.2 := by
  induction bs generalizing entries with
  | nil => cases hb
  | cons b' bs ih =>
    rw [List.map_cons, List.nodup_cons] at hnodup
    rw [List.foldl_cons]
    rcases List.mem_cons.mp hb with rfl | hb
    · rw [find?_insertAll_of_notMem hnodup.1, find?_insert_name, if_pos BEq.rfl]
    · exact ih hnodup.2 hb _

end Keyed

theorem Heap.layer_congr {h h' : Heap} (heq : h.layers = h'.layers) (s : ScopeRef) :
    h.layer s = h'.layer s := by
  unfold Heap.layer
  rw [heq]

theorem Heap.layer_bindAll_of_ne {s t : ScopeRef} (hne : t ≠ s) (h : Heap) (bs : List (String × Value)) :
    (h.bindAll s bs).layer t = h.layer t := by
  induction bs generalizing h with
  | nil => rfl
  | cons b bs ih =>
    have hid : s.id ≠ t.id := fun hid => hne (by cases s; cases t; cases hid; rfl)
    refine (ih (h.bind s b.1 b.2)).trans ?_
    unfold Heap.layer Heap.bind
    rw [Array.getElem?_modify, if_neg hid]

/-- From one world to the other exactly these names of a scope were bound, to values that show what the
assignment says. Else there are new objects and nothing has changed. -/
structure Assigned (s : ScopeRef) (names : List String) (τ : String → Datum) (w w' : World) : Prop where
  values : ∀ x ∈ names, ∃ v, w'.heap.localValue s x = some v ∧ w'.heap.Shows v (τ x)
  others : ∀ x, x ∉ names → w'.heap.localValue s x = w.heap.localValue s x
  hidden : (w'.heap.layer s).hidden = (w.heap.layer s).hidden
  base : (w'.heap.layer s).base = (w.heap.layer s).base
  layers : ∀ t, t ≠ s → w'.heap.layer t = w.heap.layer t
  objects : w.heap.Grown w'.heap
  journal : w'.journal = w.journal
  store : w'.store = w.store

theorem Bound.assigned {s : ScopeRef} {w w' : World} {σ : Assignment} {τ : String → Datum}
    (h : Bound s σ w w') (hs : s.id < w.heap.layers.size) (hnodup : (σ.map Prod.fst).Nodup)
    (hτ : Pattern.Agrees τ σ) : Assigned s (σ.map Prod.fst) τ w w' := by
  obtain ⟨bs, σ', hlayers, hbs, hperm⟩ := h.bindings
  have hnames : bs.map Prod.fst = σ'.map Prod.fst := by
    have hfst := hbs.imp (S := fun b e => b.1 = e.1) fun _ _ hb => hb.1
    rwa [← List.forall₂_eq_eq_eq, List.forall₂_map_left_iff, List.forall₂_map_right_iff]
  have hmem {x : String} : x ∈ σ.map Prod.fst ↔ x ∈ bs.map Prod.fst := by
    rw [hnames]
    exact (hperm.map _).mem_iff.symm
  rw [← (hperm.map _).nodup_iff, ← hnames] at hnodup
  have hlayer := Heap.layer_bindAll hs bs
  rw [← Heap.layer_congr hlayers] at hlayer
  refine ⟨?_, ?_, ?_, ?_, ?_, h.grown, h.journal, h.store⟩
  · intro x hx
    obtain ⟨b, hb, rfl⟩ := List.mem_map.mp (hmem.mp hx)
    obtain ⟨e, he, hname, hshows⟩ := Codec.mem_right hbs.flip hb
    refine ⟨b.2, ?_, ?_⟩
    · rw [Heap.localValue, hlayer]
      exact Keyed.find?_insertAll_of_mem hnodup hb _
    · rw [hname, hτ e (hperm.mem_iff.mp he)]
      exact hshows
  · intro x hx
    rw [Heap.localValue, hlayer]
    exact Keyed.find?_insertAll_of_notMem (fun hb => hx (hmem.mpr hb)) _
  · rw [hlayer]
  · rw [hlayer]
  · intro t ht
    rw [Heap.layer_congr hlayers, Heap.layer_bindAll_of_ne ht]

theorem Pattern.exists_agrees {σ : Assignment} (hnodup : (σ.map Prod.fst).Nodup) :
    ∃ τ, Pattern.Agrees τ σ := by
  induction σ with
  | nil => exact ⟨fun _ => .null, nofun⟩
  | cons e σ ih =>
    rw [List.map_cons, List.nodup_cons] at hnodup
    obtain ⟨τ, hτ⟩ := ih hnodup.2
    refine ⟨Function.update τ e.1 e.2, List.forall_mem_cons.mpr ⟨Function.update_self .., ?_⟩⟩
    intro e' he'
    rw [Function.update_of_ne, hτ e' he']
    rintro heq
    exact hnodup.1 (List.mem_map.mpr ⟨e', he', heq⟩)

namespace EvalM

/-- Matching succeeds exactly on the values that are equal to an instance of the pattern. It then binds
the assignment that makes it one, which is the only one up to equality, each name to a part of the value
and a spread symbol to what is left of a collection. Otherwise the fault is a mismatch. -/
theorem bind_matches_instances {w : World} {s : ScopeRef} {P : Pattern} {v : Value} {d : Datum} {n : Nat}
    (hP : P.Proper) (hnames : P.names.Nodup) (hn : P.fuel ≤ n) (hs : s.id < w.heap.layers.size)
    (hv : w.heap.Shows v d) (hd : d.Regular) :
    ((((recursor n).bind P.code (.value v) s).run w).1 = .ok () ↔ ∃ τ, Pattern.HasInstance τ P d) ∧
    ((((recursor n).bind P.code (.value v) s).run w).1 = .ok () →
      ∃ τ, Pattern.HasInstance τ P d ∧
        Assigned s P.names τ w (((recursor n).bind P.code (.value v) s).run w).2 ∧
        (∀ x ∈ P.names, d.TakenFrom (τ x)) ∧
        ∀ τ', Pattern.HasInstance τ' P d → ∀ x ∈ P.names, (τ' x).equal (τ x) = true) ∧
    ∀ fault, (((recursor n).bind P.code (.value v) s).run w).1 = .error fault →
      ∃ detail, fault = .raised { reason := .patternMismatch "value" detail, trace := [] } := by
  have hmatch := solves hP hn s w (.value v) d hv.reads
  cases hsolve : P.solve? d with
  | none =>
    rw [hsolve] at hmatch
    obtain ⟨detail, w', hrun⟩ := hmatch
    rw [hrun]
    refine ⟨⟨nofun, ?_⟩, nofun, fun fault hfault => ⟨detail, (Except.error.inj hfault).symm⟩⟩
    rintro ⟨τ, d', hinstance, hequal⟩
    obtain ⟨σ, hσ, -⟩ := Pattern.solve_complete hP hinstance hequal
    rw [hsolve] at hσ
    cases hσ
  | some σ =>
    rw [hsolve] at hmatch
    obtain ⟨⟨⟩, w', hrun, hbound, -⟩ := hmatch
    have hfst := Pattern.map_fst_of_solve hP hsolve
    rw [← hfst] at hnames ⊢
    obtain ⟨τ, hτ⟩ := Pattern.exists_agrees hnames
    have hinstance := Pattern.solve_sound hP hd hsolve hτ
    have hmem : ∀ x ∈ σ.map Prod.fst, (x, τ x) ∈ σ := by
      intro x hx
      obtain ⟨e, he, rfl⟩ := List.mem_map.mp hx
      rw [hτ e he]
      exact he
    rw [hrun]
    refine ⟨⟨fun _ => ⟨τ, hinstance⟩, fun _ => rfl⟩, fun _ => ⟨τ, hinstance, ?_, ?_, ?_⟩, nofun⟩
    · exact hbound.assigned hs hnames hτ
    · exact fun x hx => Pattern.takenFrom_of_solve hP hsolve _ (hmem x hx)
    · rintro τ' ⟨d', hinstance', hequal⟩ x hx
      obtain ⟨σ', hσ', hmeets⟩ := Pattern.solve_complete hP hinstance' hequal
      rw [hsolve] at hσ'
      cases hσ'
      exact hmeets _ (hmem x hx)

def restPattern : Pattern :=
  .list [.literal ⟨.float 1, nofun⟩, .dict [(⟨.str "k", nofun⟩, .sym "b")] (some "rest")] none

def restDatum : Datum :=
  .list [.int 1, .dict [(.str "k", .int 2), (.str "z", .int 3)]]

/-- A dict with a spread in a list. The literal is a float and the value an integer. -/
theorem bind_matches_instances_rest :
    (((recursor ampleFuel).bind restPattern.code (.value (Heap.initial.thaw restDatum).1)
      Heap.builtinScope).run { World.initial with heap := (Heap.initial.thaw restDatum).2 }).1 =
      .ok () := by
  have hproper : restPattern.Proper := by
    refine .list (List.forall_mem_cons.mpr ⟨.literal _, List.forall_mem_singleton.mpr ?_⟩)
    exact .dict (List.pairwise_singleton _ _) (List.forall_mem_singleton.mpr (.sym "b"))
  have hregular : restDatum.Regular := by
    refine ⟨.list ?_, .list ?_, ?_⟩
    · refine List.forall_mem_cons.mpr ⟨.atom _, List.forall_mem_singleton.mpr (.dict ?_ ?_ ?_)⟩
      · decide
      · exact List.forall_mem_cons.mpr ⟨.atom _, List.forall_mem_singleton.mpr (.atom _)⟩
      · exact List.forall_mem_cons.mpr ⟨.atom _, List.forall_mem_singleton.mpr (.atom _)⟩
    · refine List.forall_mem_cons.mpr ⟨.atom _, List.forall_mem_singleton.mpr (.dict ?_ ?_)⟩
      · decide +kernel
      · exact List.forall_mem_cons.mpr ⟨.atom _, List.forall_mem_singleton.mpr (.atom _)⟩
    · intro f hf
      cases hf with
      | list hmem hf =>
        rcases List.mem_cons.mp hmem with rfl | hmem
        · cases hf
        · obtain rfl := List.mem_singleton.mp hmem
          cases hf with
          | key hentry hf | value hentry hf =>
            rcases List.mem_cons.mp hentry with rfl | hentry
            · cases hf
            · obtain rfl := List.mem_singleton.mp hentry
              cases hf
  have hinert : restDatum.Inert := by
    refine .list (List.forall_mem_cons.mpr ⟨.atom _, List.forall_mem_singleton.mpr (.dict ?_ ?_)⟩)
    · exact List.forall_mem_cons.mpr ⟨.atom _, List.forall_mem_singleton.mpr (.atom _)⟩
    · exact List.forall_mem_cons.mpr ⟨.atom _, List.forall_mem_singleton.mpr (.atom _)⟩
  refine (bind_matches_instances hproper (by decide) (by decide) (by decide)
    (Heap.thaw_shows _ hinert).2 hregular).1.mpr ?_
  refine ⟨fun x => if x = "b" then .int 2 else .dict [(.str "z", .int 3)],
    .list [.float 1, .dict [(.str "k", .int 2), (.str "z", .int 3)]], ?_, by decide +kernel⟩
  refine @Pattern.Instance.list _ _ [_, _] [] _ rfl (List.forall_mem_cons.mpr ⟨.literal _, ?_⟩) rfl
  refine List.forall_mem_singleton.mpr ?_
  refine @Pattern.Instance.dict _ _ [.int 2] [(.str "z", .int 3)] _ rfl ?_ ?_ ?_
  · exact List.forall_mem_singleton.mpr (.name (by decide))
  · exact fun _ => rfl
  · decide +kernel

end EvalM

end EventTally
