import EventTally.Proofs.Datum.Keys

/-! # Data that literals stand for

Data without symbols and callables, whose floats are finite and whose keys are hashable and told
apart. Data that are identical to such a datum are so as well, equal to it and nested as deep.
-/

namespace EventTally.Datum

inductive Literal : Datum → Prop
  | atom {a : Atom} (hfinite : ∀ f, a = .float f → f.isFinite = true) (hsym : ∀ name, a ≠ .sym name) :
      Literal (.atom a)
  | list {ds : List Datum} (h : ∀ d ∈ ds, Literal d) : Literal (.list ds)
  | tuple {ds : List Datum} (h : ∀ d ∈ ds, Literal d) : Literal (.tuple ds)
  | dict {es : List (Datum × Datum)} (hkey : ∀ e ∈ es, e.1.hashable = true)
      (hapart : es.Pairwise fun e e' => e.1.equal e'.1 = false) (h : ∀ e ∈ es, Literal e.1)
      (h' : ∀ e ∈ es, Literal e.2) : Literal (.dict es)
  | set {ds : List Datum} (hkey : ∀ d ∈ ds, d.hashable = true)
      (hapart : ds.Pairwise fun d d' => d.equal d' = false) (h : ∀ d ∈ ds, Literal d) : Literal (.set ds)

mutual

/-- How many collections are nested in each other. -/
def nesting : Datum → Nat
  | .list ds | .tuple ds | .set ds => nestingAll ds + 1
  | .dict es => nestingEntries es + 1
  | .atom _ | .builtin _ | .closure .. => 0

def nestingAll : List Datum → Nat
  | [] => 0
  | d :: ds => max (nesting d) (nestingAll ds)

def nestingEntries : List (Datum × Datum) → Nat
  | [] => 0
  | (k, v) :: es => max (max (nesting k) (nesting v)) (nestingEntries es)

end

theorem nestingAll_le_iff {ds : List Datum} {n : Nat} :
    nestingAll ds ≤ n ↔ ∀ d ∈ ds, d.nesting ≤ n := by
  induction ds with
  | nil => simp [nestingAll]
  | cons d ds ih => rw [nestingAll, Nat.max_le, ih, List.forall_mem_cons]

theorem nesting_le_of_mem {ds : List Datum} {d : Datum} (hd : d ∈ ds) : d.nesting ≤ nestingAll ds :=
  nestingAll_le_iff.mp le_rfl d hd

theorem nestingEntries_le_iff {es : List (Datum × Datum)} {n : Nat} :
    nestingEntries es ≤ n ↔ ∀ e ∈ es, e.1.nesting ≤ n ∧ e.2.nesting ≤ n := by
  induction es with
  | nil => simp [nestingEntries]
  | cons e es ih => rw [nestingEntries, Nat.max_le, Nat.max_le, ih, List.forall_mem_cons]

section

variable {α β : Type} {xs : List α} {ys : List β}

theorem exists_zip_left (hlength : xs.length = ys.length) {x : α} (hx : x ∈ xs) :
    ∃ p ∈ xs.zip ys, p.1 = x := by
  rw [← List.map_fst_zip (Nat.le_of_eq hlength)] at hx
  exact List.mem_map.mp hx

theorem exists_zip_right (hlength : xs.length = ys.length) {y : β} (hy : y ∈ ys) :
    ∃ p ∈ xs.zip ys, p.2 = y := by
  rw [← List.map_snd_zip (Nat.le_of_eq hlength.symm)] at hy
  exact List.mem_map.mp hy

theorem zip_swap {R : α → β → Prop} (h : ∀ p ∈ xs.zip ys, R p.1 p.2) :
    ∀ p ∈ ys.zip xs, R p.2 p.1 := by
  intro p hp
  rw [← List.zip_swap, List.mem_map] at hp
  obtain ⟨q, hq, rfl⟩ := hp
  exact h q hq

end

theorem Identical.eq_of_hashable {x y : Datum} (h : Identical x y) (hx : x.hashable = true) : x = y := by
  induction h with
  | atom | builtin | closure => rfl
  | list | dict | set => cases hx
  | @tuple xs ys hlength _ ih =>
    rw [hashable, allHashable_iff] at hx
    have hall : List.Forall₂ Eq xs ys :=
      List.forall₂_iff_zip.mpr ⟨hlength, fun {a b} hp => ih (a, b) hp (hx _ (List.of_mem_zip hp).1)⟩
    rw [List.forall₂_eq_eq_eq] at hall
    rw [hall]

theorem eq_of_identical_keys {zs ys : List Datum} (hlength : zs.length = ys.length)
    (h : ∀ p ∈ zs.zip ys, Identical p.1 p.2) (hkey : ∀ z ∈ zs, z.hashable = true) : zs = ys := by
  have hall : List.Forall₂ Eq zs ys := List.forall₂_iff_zip.mpr
    ⟨hlength, fun {a b} hp => (h (a, b) hp).eq_of_hashable (hkey a (List.of_mem_zip hp).1)⟩
  rwa [List.forall₂_eq_eq_eq] at hall

theorem map_fst_of_identical {zs ys : List (Datum × Datum)} (hlength : zs.length = ys.length)
    (h : ∀ p ∈ zs.zip ys, Identical p.1.1 p.2.1) (hkey : ∀ z ∈ zs, z.1.hashable = true) :
    zs.map Prod.fst = ys.map Prod.fst := by
  refine eq_of_identical_keys (by simpa using hlength) (fun p hp => ?_) (fun d hd => ?_)
  · rw [List.zip_map, List.mem_map] at hp
    obtain ⟨q, hq, rfl⟩ := hp
    exact h q hq
  · obtain ⟨z, hz, rfl⟩ := List.mem_map.mp hd
    exact hkey z hz

theorem Identical.literal {x y : Datum} (h : Identical x y) (hx : x.Literal) : y.Literal := by
  induction h with
  | atom | builtin | closure => exact hx
  | list hlength hparts ih =>
    cases hx with
    | list hx =>
      refine .list fun y hy => ?_
      obtain ⟨p, hp, rfl⟩ := exists_zip_right hlength hy
      exact ih p hp (hx _ (List.of_mem_zip hp).1)
  | tuple hlength hparts ih =>
    cases hx with
    | tuple hx =>
      refine .tuple fun y hy => ?_
      obtain ⟨p, hp, rfl⟩ := exists_zip_right hlength hy
      exact ih p hp (hx _ (List.of_mem_zip hp).1)
  | @dict xs ys zs horder hlength hkeys hvalues ihkey ihvalue =>
    cases hx with
    | dict hkey hapart hx hx' =>
      have hkey' : ∀ z ∈ zs, z.1.hashable = true := fun z hz => hkey z (horder.mem_iff.mpr hz)
      have heq := map_fst_of_identical hlength hkeys hkey'
      refine .dict (fun y hy => ?_) ?_ (fun y hy => ?_) fun y hy => ?_
      · have hmem : y.1 ∈ zs.map Prod.fst := heq ▸ List.mem_map_of_mem hy
        obtain ⟨z, hz, hzy⟩ := List.mem_map.mp hmem
        exact hzy ▸ hkey' z hz
      · have hpairwise := (pairwise_apart_perm Prod.fst hkey hapart horder).imp And.left
        rw [← List.pairwise_map (R := fun k l : Datum => k.equal l = false)] at hpairwise ⊢
        rwa [← heq]
      · obtain ⟨p, hp, rfl⟩ := exists_zip_right hlength hy
        exact ihkey p hp (hx _ (horder.mem_iff.mpr (List.of_mem_zip hp).1))
      · obtain ⟨p, hp, rfl⟩ := exists_zip_right hlength hy
        exact ihvalue p hp (hx' _ (horder.mem_iff.mpr (List.of_mem_zip hp).1))
  | @set xs ys zs horder hlength hparts ih =>
    cases hx with
    | set hkey hapart hx =>
      obtain rfl := eq_of_identical_keys hlength hparts fun z hz => hkey z (horder.mem_iff.mpr hz)
      exact .set (fun y hy => hkey y (horder.mem_iff.mpr hy))
        ((pairwise_apart_perm id hkey hapart horder).imp And.left) fun y hy => hx y (horder.mem_iff.mpr hy)

theorem Identical.equal {x y : Datum} (h : Identical x y) (hx : x.Literal) : x.equal y = true := by
  have hy := h.literal hx
  induction h with
  | atom a =>
    cases hx with
    | atom hfinite _ =>
      exact equal_iff.mpr (.atom (Atom.equal_self fun f hf => Decimal.not_isNaN_of_isFinite (hfinite f hf)))
  | builtin | closure => cases hx
  | list hlength hparts ih =>
    cases hx with
    | list hx =>
      cases hy with
      | list hy =>
        refine equal_iff.mpr (.list (List.forall₂_iff_zip.mpr ⟨hlength, fun {a b} hp => ?_⟩))
        exact ih (a, b) hp (hx a (List.of_mem_zip hp).1) (hy b (List.of_mem_zip hp).2)
  | tuple hlength hparts ih =>
    cases hx with
    | tuple hx =>
      cases hy with
      | tuple hy =>
        refine equal_iff.mpr (.tuple (List.forall₂_iff_zip.mpr ⟨hlength, fun {a b} hp => ?_⟩))
        exact ih (a, b) hp (hx a (List.of_mem_zip hp).1) (hy b (List.of_mem_zip hp).2)
  | @dict xs ys zs horder hlength hkeys hvalues ihkey ihvalue =>
    cases hx with
    | dict hkey hapart hx hx' =>
      cases hy with
      | dict hkey' hapart' hy hy' =>
        refine equal_iff.mpr (.dict (horder.length_eq.trans hlength) fun e he => ?_)
        have hz : e ∈ zs := horder.mem_iff.mp he
        obtain ⟨p, hp, rfl⟩ := exists_zip_left hlength hz
        obtain ⟨-, hmem⟩ := List.of_mem_zip hp
        -- The keys of the pair are the same datum, and so each is found by the other.
        have heq : p.1.1 = p.2.1 := (hkeys p hp).eq_of_hashable (hkey _ he)
        have hself : p.2.1.equal p.2.1 = true := by
          have hequal := ihkey p hp (hx _ he) (hy _ hmem)
          rwa [heq] at hequal
        refine ⟨p.2, ?_, ihvalue p hp (hx' _ he) (hy' _ hmem)⟩
        rw [heq]
        exact find?_eq_self (p := fun e e' => e.1.sameKey e'.1)
          (pairwise_not_sameKey Prod.fst hkey' hapart' (.refl ys)) hmem (sameKey_iff.mpr ⟨hself, rfl⟩)
  | @set xs ys zs horder hlength hparts ih =>
    cases hx with
    | set hkey hapart hx =>
      cases hy with
      | set hkey' hapart' hy =>
        refine equal_iff.mpr (.set (horder.length_eq.trans hlength) fun e he => ?_)
        have hz : e ∈ zs := horder.mem_iff.mp he
        obtain ⟨p, hp, rfl⟩ := exists_zip_left hlength hz
        obtain ⟨-, hmem⟩ := List.of_mem_zip hp
        have heq : p.1 = p.2 := (hparts p hp).eq_of_hashable (hkey _ he)
        have hequal := ih p hp (hx _ he) (hy _ hmem)
        exact ⟨p.2, hmem, sameKey_iff.mpr ⟨hequal, by rw [heq]⟩⟩

theorem Identical.nesting_le {x y : Datum} (h : Identical x y) {n : Nat} (hx : x.nesting ≤ n) :
    y.nesting ≤ n := by
  induction h generalizing n with
  | atom | builtin | closure => exact hx
  | list hlength _ ih | tuple hlength _ ih =>
    obtain ⟨n, rfl⟩ := Nat.exists_eq_add_of_le' ((Nat.le_add_left 1 _).trans hx)
    have hparts := nestingAll_le_iff.mp (Nat.le_of_succ_le_succ hx)
    refine Nat.succ_le_succ (nestingAll_le_iff.mpr fun y hy => ?_)
    obtain ⟨p, hp, rfl⟩ := exists_zip_right hlength hy
    exact ih p hp (hparts _ (List.of_mem_zip hp).1)
  | set horder hlength _ ih =>
    obtain ⟨n, rfl⟩ := Nat.exists_eq_add_of_le' ((Nat.le_add_left 1 _).trans hx)
    have hparts := nestingAll_le_iff.mp (Nat.le_of_succ_le_succ hx)
    refine Nat.succ_le_succ (nestingAll_le_iff.mpr fun y hy => ?_)
    obtain ⟨p, hp, rfl⟩ := exists_zip_right hlength hy
    exact ih p hp (hparts _ (horder.mem_iff.mpr (List.of_mem_zip hp).1))
  | dict horder hlength _ _ ihkey ihvalue =>
    obtain ⟨n, rfl⟩ := Nat.exists_eq_add_of_le' ((Nat.le_add_left 1 _).trans hx)
    have hparts := nestingEntries_le_iff.mp (Nat.le_of_succ_le_succ hx)
    refine Nat.succ_le_succ (nestingEntries_le_iff.mpr fun y hy => ?_)
    obtain ⟨p, hp, rfl⟩ := exists_zip_right hlength hy
    obtain ⟨hk, hv⟩ := hparts _ (horder.mem_iff.mpr (List.of_mem_zip hp).1)
    exact ⟨ihkey p hp hk, ihvalue p hp hv⟩

theorem Identical.symm {x y : Datum} (h : Identical x y) : Identical y x := by
  induction h with
  | atom a => exact .atom a
  | builtin name => exact .builtin name
  | closure id name pattern body => exact .closure id name pattern body
  | list hlength _ ih => exact .list hlength.symm (zip_swap (R := fun x y => Identical y x) ih)
  | tuple hlength _ ih => exact .tuple hlength.symm (zip_swap (R := fun x y => Identical y x) ih)
  | @dict xs ys zs horder hlength _ _ ihkey ihvalue =>
    have hall : List.Forall₂ (fun z y : Datum × Datum => Identical y.1 z.1 ∧ Identical y.2 z.2) zs ys :=
      List.forall₂_iff_zip.mpr ⟨hlength, fun hp => ⟨ihkey _ hp, ihvalue _ hp⟩⟩
    obtain ⟨ws, hws, horder'⟩ := List.perm_comp_forall₂ horder hall
    obtain ⟨hlength', hzip⟩ := List.forall₂_iff_zip.mp hws.flip
    exact .dict horder'.symm hlength' (fun p hp => (hzip hp).1) fun p hp => (hzip hp).2
  | @set xs ys zs horder hlength _ ih =>
    have hall : List.Forall₂ (fun z y => Identical y z) zs ys :=
      List.forall₂_iff_zip.mpr ⟨hlength, fun hp => ih _ hp⟩
    obtain ⟨ws, hws, horder'⟩ := List.perm_comp_forall₂ horder hall
    obtain ⟨hlength', hzip⟩ := List.forall₂_iff_zip.mp hws.flip
    exact .set horder'.symm hlength' fun p hp => hzip hp

end EventTally.Datum
