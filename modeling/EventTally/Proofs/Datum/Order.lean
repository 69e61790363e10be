import EventTally.Proofs.Datum.Keys
import EventTally.Proofs.Decimal.Order
import Mathlib.Data.String.Basic

/-! # The order of data

Atoms whose integers are doubles stand for scalars (`Atom.Means`): equality of atoms is equality of
scalars, and their order is one of scalars. From there the laws go up to collections. Equality of dicts
and sets looks from one side only, and is symmetric because their keys are apart and there are as many on
both sides (`exists_of_length_eq`). The order of sequences passes over equal elements, even those that have
no order, so its laws need equality to be a congruence for it (`order_congr`).
-/

namespace EventTally

open Decimal

/-- What an atom stands for: numbers of both kinds are numbers. -/
inductive Meaning where
  | null
  | truth (b : Bool)
  | number (x : Extended)
  | text (s : String)
  | symbol (name : String)

def Meaning.compare? : Meaning → Meaning → Option Ordering
  | .truth a, .truth b => some (compare a.toNat b.toNat)
  | .number x, .number y => some (compare x y)
  | .text a, .text b => some (compare a b)
  | _, _ => none

inductive Atom.Means : Atom → Meaning → Prop
  | null : Means .null .null
  | bool (b : Bool) : Means (.bool b) (.truth b)
  | int {i : Int64} (h : IsExact i) : Means (.int i) (.number (ofRat i.toInt))
  | float {f : Float} {x : Extended} (h : Represents f x) : Means (.float f) (.number x)
  | str (s : String) : Means (.str s) (.text s)
  | sym (name : String) : Means (.sym name) (.symbol name)

variable {a b : Atom} {s t u : Meaning} {o : Ordering}

theorem Atom.Means.equal_iff (ha : a.Means s) (hb : b.Means t) : a.equal b = true ↔ s = t := by
  cases ha with
  | null => cases hb <;> simp [Atom.equal]
  | bool => cases hb <;> simp [Atom.equal]
  | str => cases hb <;> simp [Atom.equal]
  | sym => cases hb <;> simp [Atom.equal]
  | int h =>
    cases hb with
    | int h' =>
      rw [Atom.equal, beq_iff_eq, Meaning.number.injEq, ofRat_inj, Int.cast_inj, Int64.toInt_inj]
    | float h' =>
      rw [Atom.equal, h.represents.beq_iff h', Meaning.number.injEq]
    | _ => simp [Atom.equal]
  | float h =>
    cases hb with
    | int h' => rw [Atom.equal, h.beq_iff h'.represents, Meaning.number.injEq]
    | float h' => rw [Atom.equal, h.beq_iff h', Meaning.number.injEq]
    | _ => simp [Atom.equal]

theorem compareFloats_eq {f g : Float} {x y : Extended} (hf : Represents f x) (hg : Represents g y) :
    Datum.compareFloats f g = compare x y := by
  unfold Datum.compareFloats
  rcases lt_trichotomy x y with h | rfl | h
  · rw [if_pos ((hf.lt_iff hg).mpr h), compare_lt_iff_lt.mpr h]
  · rw [if_neg fun hlt => lt_irrefl _ ((hf.lt_iff hg).mp hlt),
      if_neg fun hgt => lt_irrefl _ ((hg.lt_iff hf).mp hgt), compare_eq_iff_eq.mpr rfl]
  · rw [if_neg fun hlt => lt_asymm h ((hf.lt_iff hg).mp hlt), if_pos ((hg.lt_iff hf).mpr h),
      compare_gt_iff_gt.mpr h]

theorem compare_toInt (i j : Int64) :
    compare i.toInt j.toInt = compare (ofRat i.toInt) (ofRat j.toInt) := by
  rw [compare_ofRat]
  rcases lt_trichotomy i.toInt j.toInt with h | h | h
  · rw [compare_lt_iff_lt.mpr h, compare_lt_iff_lt.mpr (Int.cast_lt.mpr h)]
  · rw [h, compare_eq_iff_eq.mpr rfl, compare_eq_iff_eq.mpr rfl]
  · rw [compare_gt_iff_gt.mpr h, compare_gt_iff_gt.mpr (Int.cast_lt.mpr h)]

theorem Atom.Means.compare_iff (ha : a.Means s) (hb : b.Means t) :
    Datum.compareAtoms a b = .ok o ↔ s.compare? t = some o := by
  cases ha with
  | null => cases hb <;> simp [Datum.compareAtoms, Meaning.compare?]
  | bool => cases hb <;> simp [Datum.compareAtoms, Meaning.compare?]
  | sym => cases hb <;> simp [Datum.compareAtoms, Meaning.compare?]
  | str =>
    cases hb with
    | str => exact ⟨fun h => congrArg some (Except.ok.inj h), fun h => congrArg Except.ok (Option.some.inj h)⟩
    | _ => simp [Datum.compareAtoms, Meaning.compare?]
  | int h =>
    cases hb with
    | int h' => simp [Datum.compareAtoms, Meaning.compare?, compare_toInt]
    | float h' => simp [Datum.compareAtoms, Meaning.compare?, compareFloats_eq h.represents h']
    | _ => simp [Datum.compareAtoms, Meaning.compare?]
  | float h =>
    cases hb with
    | int h' => simp [Datum.compareAtoms, Meaning.compare?, compareFloats_eq h h'.represents]
    | float h' => simp [Datum.compareAtoms, Meaning.compare?, compareFloats_eq h h']
    | _ => simp [Datum.compareAtoms, Meaning.compare?]

theorem swap_compare {α : Type} [LinearOrder α] (x y : α) : (compare x y).swap = compare y x := by
  rw [← cmp_eq_compare, ← cmp_eq_compare, cmp_swap]

namespace Meaning

theorem compare?_swap (h : s.compare? t = some o) : t.compare? s = some o.swap := by
  unfold compare? at h
  split at h <;> cases h
  all_goals exact congrArg some (swap_compare _ _).symm

theorem compare?_eq_iff (h : s.compare? t = some o) : o = .eq ↔ s = t := by
  unfold compare? at h
  split at h
  · next a b =>
    rw [← Option.some.inj h, compare_eq_iff_eq, truth.injEq]
    cases a <;> cases b <;> decide
  · rw [← Option.some.inj h, compare_eq_iff_eq, number.injEq]
  · rw [← Option.some.inj h, compare_eq_iff_eq, text.injEq]
  · cases h

theorem compare?_trans (h : s.compare? t = some .lt) (h' : t.compare? u = some .lt) :
    s.compare? u = some .lt := by
  have htrans {α : Type} [LinearOrder α] {x y z : α} (h : compare x y = .lt) (h' : compare y z = .lt) :
      compare x z = .lt :=
    compare_lt_iff_lt.mpr ((compare_lt_iff_lt.mp h).trans (compare_lt_iff_lt.mp h'))
  unfold compare? at h
  split at h
  · cases u <;> first | cases h' | exact congrArg some (htrans (Option.some.inj h) (Option.some.inj h'))
  · cases u <;> first | cases h' | exact congrArg some (htrans (Option.some.inj h) (Option.some.inj h'))
  · cases u <;> first | cases h' | exact congrArg some (htrans (Option.some.inj h) (Option.some.inj h'))
  · cases h

end Meaning

namespace Datum

variable {x y z : Datum}

structure Exact (d : Datum) : Prop where
  regular : d.Regular
  exact : ∀ i, PartOf (.int i) d → IsExact i

namespace Exact

theorem of_mem_list {ds : List Datum} (h : (Datum.list ds).Exact) {d : Datum} (hd : d ∈ ds) : d.Exact :=
  ⟨h.regular.of_mem_list hd, fun i hi => h.exact i (.list hd hi)⟩

theorem of_mem_tuple {ds : List Datum} (h : (Datum.tuple ds).Exact) {d : Datum} (hd : d ∈ ds) : d.Exact :=
  ⟨h.regular.of_mem_tuple hd, fun i hi => h.exact i (.tuple hd hi)⟩

theorem key {es : List (Datum × Datum)} (h : (Datum.dict es).Exact) {e : Datum × Datum} (he : e ∈ es) :
    e.1.Exact :=
  ⟨h.regular.key he, fun i hi => h.exact i (.key he hi)⟩

theorem value {es : List (Datum × Datum)} (h : (Datum.dict es).Exact) {e : Datum × Datum} (he : e ∈ es) :
    e.2.Exact :=
  ⟨h.regular.value he, fun i hi => h.exact i (.value he hi)⟩

theorem of_mem_set {ds : List Datum} (h : (Datum.set ds).Exact) {d : Datum} (hd : d ∈ ds) : d.Exact :=
  ⟨h.regular.of_mem_set hd, fun i hi => h.exact i (.set hd hi)⟩

theorem means (h : (Datum.atom a).Exact) : ∃ s, a.Means s := by
  cases a with
  | int i => exact ⟨_, .int (h.exact i .self)⟩
  | float f =>
    obtain ⟨x, hx⟩ := exists_represents (h.regular.noNaN f .self)
    exact ⟨_, .float hx⟩
  | null => exact ⟨_, .null⟩
  | bool b => exact ⟨_, .bool b⟩
  | str s => exact ⟨_, .str s⟩
  | sym name => exact ⟨_, .sym name⟩

theorem hashable_key {es : List (Datum × Datum)} (h : (Datum.dict es).Exact) {e : Datum × Datum}
    (he : e ∈ es) : e.1.hashable = true := by
  cases h.regular.sound with
  | dict hhash => exact hhash e he

theorem hashable_of_mem {ds : List Datum} (h : (Datum.set ds).Exact) {d : Datum} (hd : d ∈ ds) :
    d.hashable = true := by
  cases h.regular.sound with
  | set hhash => exact hhash d hd

end Exact

theorem forall₂_trans {xs ys zs : List Datum}
    (hstep : ∀ x ∈ xs, ∀ y ∈ ys, ∀ z ∈ zs, x.equal y = true → y.equal z = true → x.equal z = true)
    (h : List.Forall₂ (fun x y => x.equal y = true) xs ys)
    (h' : List.Forall₂ (fun x y => x.equal y = true) ys zs) :
    List.Forall₂ (fun x y => x.equal y = true) xs zs := by
  induction h generalizing zs with
  | nil => exact h'
  | @cons x y xs ys hxy _ ih =>
    cases h' with
    | @cons _ z _ zs hyz htail =>
      refine .cons (hstep x List.mem_cons_self y List.mem_cons_self z List.mem_cons_self hxy hyz) ?_
      exact ih (fun x hx y hy z hz => hstep x (List.mem_cons_of_mem _ hx) y (List.mem_cons_of_mem _ hy) z
        (List.mem_cons_of_mem _ hz)) htail

theorem equal_atom_trans (ha : (Datum.atom a).Exact) (hy : y.Exact) (hz : z.Exact)
    (hxy : (Datum.atom a).equal y = true) (hyz : y.equal z = true) : (Datum.atom a).equal z = true := by
  cases equal_iff.mp hxy with
  | atom hab =>
    cases equal_iff.mp hyz with
    | atom hbc =>
      obtain ⟨s, hs⟩ := ha.means
      obtain ⟨t, ht⟩ := hy.means
      obtain ⟨u, hu⟩ := hz.means
      refine equal_iff.mpr (.atom ((hs.equal_iff hu).mpr ?_))
      exact ((hs.equal_iff ht).mp hab).trans ((ht.equal_iff hu).mp hbc)

theorem equal_key_trans (hkey : x.hashable = true) (hx : x.Exact) (hy : y.Exact) (hz : z.Exact)
    (hxy : x.equal y = true) (hyz : y.equal z = true) : x.equal z = true := by
  induction sound_of_hashable hkey generalizing y z with
  | atom a => exact equal_atom_trans hx hy hz hxy hyz
  | @tuple xs _ ih =>
    rw [hashable, allHashable_iff] at hkey
    cases equal_iff.mp hxy with
    | tuple hparts =>
      cases equal_iff.mp hyz with
      | tuple hparts' =>
        refine equal_iff.mpr (.tuple (forall₂_trans (fun x hx' y hy' z hz' => ?_) hparts hparts'))
        exact ih x hx' (hkey x hx') (hx.of_mem_tuple hx') (hy.of_mem_tuple hy') (hz.of_mem_tuple hz')
  | list | dict | set => cases hkey
  | builtin name =>
    cases equal_iff.mp hxy with
    | builtin => exact hyz
  | closure id name pattern body =>
    cases equal_iff.mp hxy with
    | closure =>
      cases equal_iff.mp hyz with
      | closure => exact equal_iff.mpr (.closure ..)

theorem sameKey_trans (hkey : x.hashable = true) (hx : x.Exact) (hy : y.Exact) (hz : z.Exact)
    (hxy : x.sameKey y = true) (hyz : y.sameKey z = true) : x.sameKey z = true := by
  obtain ⟨hequal, hhash⟩ := sameKey_iff.mp hxy
  obtain ⟨hequal', hhash'⟩ := sameKey_iff.mp hyz
  exact sameKey_iff.mpr ⟨equal_key_trans hkey hx hy hz hequal hequal', hhash.trans hhash'⟩

/-- Among the data equality is transitive, and equal ones have one hash. -/
structure Coheres (ds : List Datum) : Prop where
  hash : ∀ x ∈ ds, ∀ y ∈ ds, x.equal y = true → x.hash = y.hash
  trans : ∀ x ∈ ds, ∀ y ∈ ds, ∀ z ∈ ds, x.equal y = true → y.equal z = true → x.equal z = true

theorem Coheres.sameKey_eq {ds : List Datum} (h : Coheres ds) (hx : x ∈ ds) (hy : y ∈ ds) :
    x.sameKey y = x.equal y :=
  Bool.eq_iff_iff.mpr (sameKey_iff.trans ⟨And.left, fun hequal => ⟨hequal, h.hash x hx y hy hequal⟩⟩)

theorem Meets.partOf {i : Int64} {f : Float} (h : Meets i f x y) :
    PartOf (.int i) x ∨ PartOf (.int i) y := by
  induction h with
  | left => exact .inl .self
  | right => exact .inr .self
  | tuple hmem _ ih =>
    obtain ⟨hx, hy⟩ := List.of_mem_zip hmem
    exact ih.imp (.tuple hx) (.tuple hy)

theorem coheres_of_exact {ds : List Datum} (hkey : ∀ d ∈ ds, d.hashable = true)
    (hexact : ∀ d ∈ ds, d.Exact) : Coheres ds where
  hash x hx y hy hequal := hash_eq_of_equal (hkey x hx) hequal fun i _ hmeets =>
    hmeets.partOf.elim ((hexact x hx).exact i) ((hexact y hy).exact i)
  trans x hx y hy z hz := equal_key_trans (hkey x hx) (hexact x hx) (hexact y hy) (hexact z hz)

theorem exact_int {i : Int64} (h : IsExact i) : (Datum.int i).Exact where
  regular := ⟨.atom _, .atom _, fun f hf => by cases hf⟩
  exact j hj := by
    cases hj
    exact h

theorem Exact.eq_of_sameKey {es : List (Datum × Datum)} (h : (Datum.dict es).Exact) {e e' : Datum × Datum}
    (he : e ∈ es) (he' : e' ∈ es) (hsame : e.1.sameKey e'.1 = true) : e = e' := by
  cases h.regular.apart with
  | dict hapart _ =>
    have hboth := pairwise_apart_perm Prod.fst (fun e he => h.hashable_key he) hapart (.refl es)
    have hsymm : Std.Symm fun e e' : Datum × Datum =>
        e.1.equal e'.1 = false ∧ e'.1.equal e.1 = false := ⟨fun _ _ h => h.symm⟩
    by_contra hne
    rw [not_sameKey_of_not_equal (hboth.forall he he' hne).1] at hsame
    cases hsame

theorem Exact.find?_entry {es : List (Datum × Datum)} (h : (Datum.dict es).Exact) {e : Datum × Datum}
    (he : e ∈ es) {k : Datum} (hkey : k.hashable = true) (hk : k.Exact) (hsame : k.sameKey e.1 = true) :
    es.find? (fun e' => k.sameKey e'.1) = some e := by
  have hsome : (es.find? fun e' => k.sameKey e'.1).isSome = true :=
    List.find?_isSome.mpr ⟨e, he, hsame⟩
  obtain ⟨e', he'⟩ := Option.isSome_iff_exists.mp hsome
  have hmem := List.mem_of_find?_eq_some he'
  have hsame' : k.sameKey e'.1 = true := by simpa using List.find?_some he'
  rw [he', Option.some.injEq]
  exact h.eq_of_sameKey hmem he (sameKey_trans (h.hashable_key hmem) (h.key hmem) hk (h.key he)
    (sameKey_symm hkey hsame') hsame)

/-- If as many elements as there are all find different ones, then every one is found. -/
theorem exists_of_length_eq {α : Type} {R : α → α → Prop} {xs ys : List α}
    (hlength : xs.length = ys.length) (hfound : ∀ x ∈ xs, ∃ y ∈ ys, R x y)
    (hapart : xs.Pairwise fun x x' => ∀ y, y ∈ ys → R x y → ¬R x' y) : ∀ y ∈ ys, ∃ x ∈ xs, R x y := by
  induction xs generalizing ys with
  | nil =>
    rw [List.eq_nil_of_length_eq_zero hlength.symm]
    exact List.forall_mem_nil _
  | cons x xs ih =>
    obtain ⟨⟨y, hy, hxy⟩, hrest⟩ := List.forall_mem_cons.mp hfound
    obtain ⟨hhead, htail⟩ := List.pairwise_cons.mp hapart
    obtain ⟨front, back, rfl⟩ := List.append_of_mem hy
    have hsubset {z : α} (hz : z ∈ front ++ back) : z ∈ front ++ y :: back := by
      simp only [List.mem_append, List.mem_cons] at hz ⊢
      exact hz.imp_right .inr
    have hlength' : xs.length = (front ++ back).length := by
      simp at hlength ⊢
      omega
    have hothers := ih hlength'
      (fun x' hx' => by
        obtain ⟨z, hz, hx'z⟩ := hrest x' hx'
        refine ⟨z, ?_, hx'z⟩
        rw [List.mem_append, List.mem_cons] at hz
        rcases hz with hz | rfl | hz
        · exact List.mem_append_left _ hz
        · exact absurd hx'z (hhead x' hx' z hy hxy)
        · exact List.mem_append_right _ hz)
      (htail.imp fun h z hz => h z (hsubset hz))
    intro z hz
    rw [List.mem_append, List.mem_cons] at hz
    rcases hz with hz | rfl | hz
    · obtain ⟨x', hx', h⟩ := hothers z (List.mem_append_left _ hz)
      exact ⟨x', List.mem_cons_of_mem _ hx', h⟩
    · exact ⟨x, List.mem_cons_self, hxy⟩
    · obtain ⟨x', hx', h⟩ := hothers z (List.mem_append_right _ hz)
      exact ⟨x', List.mem_cons_of_mem _ hx', h⟩

theorem not_sameKey_both {α : Type} (key : α → Datum) {xs ys : List α}
    (hxs : ∀ x ∈ xs, (key x).hashable = true ∧ (key x).Exact) (hys : ∀ y ∈ ys, (key y).Exact)
    (hapart : xs.Pairwise fun x x' => (key x).equal (key x') = false) :
    xs.Pairwise fun x x' => ∀ y, y ∈ ys → (key x).sameKey (key y) = true →
      (key x').sameKey (key y) = false := by
  refine hapart.imp_of_mem fun {x x'} hx hx' h y hy hxy => Bool.eq_false_iff.mpr fun hx'y => ?_
  have hsame := sameKey_trans (hxs x hx).1 (hxs x hx).2 (hys y hy) (hxs x' hx').2 hxy
    (sameKey_symm (hxs x' hx').1 hx'y)
  rw [not_sameKey_of_not_equal h] at hsame
  cases hsame

theorem forall₂_symm {xs ys : List Datum}
    (hstep : ∀ x ∈ xs, ∀ y ∈ ys, x.equal y = true → y.equal x = true)
    (h : List.Forall₂ (fun x y => x.equal y = true) xs ys) :
    List.Forall₂ (fun x y => x.equal y = true) ys xs := by
  induction h with
  | nil => exact .nil
  | @cons x y xs ys hxy _ ih =>
    refine .cons (hstep x List.mem_cons_self y List.mem_cons_self hxy) ?_
    exact ih fun x hx y hy => hstep x (List.mem_cons_of_mem _ hx) y (List.mem_cons_of_mem _ hy)

theorem Exact.equal_symm (hx : x.Exact) (hy : y.Exact) (h : x.equal y = true) : y.equal x = true := by
  induction x using parts_induction generalizing y with
  | atom a => exact Datum.equal_symm rfl h
  | builtin name => exact Datum.equal_symm rfl h
  | closure id name pattern body => exact Datum.equal_symm rfl h
  | list xs ih =>
    cases equal_iff.mp h with
    | list hparts =>
      refine equal_iff.mpr (.list (forall₂_symm (fun x hx' y hy' => ?_) hparts))
      exact ih x hx' (hx.of_mem_list hx') (hy.of_mem_list hy')
  | tuple xs ih =>
    cases equal_iff.mp h with
    | tuple hparts =>
      refine equal_iff.mpr (.tuple (forall₂_symm (fun x hx' y hy' => ?_) hparts))
      exact ih x hx' (hx.of_mem_tuple hx') (hy.of_mem_tuple hy')
  | dict xs ihkey ihvalue =>
    cases equal_iff.mp h with
    | @dict _ ys hlength hparts =>
      have hfound : ∀ e ∈ xs, ∃ e' ∈ ys, e.1.sameKey e'.1 = true ∧ e.2.equal e'.2 = true := by
        intro e he
        obtain ⟨e', hfind, hvalue⟩ := hparts e he
        exact ⟨e', List.mem_of_find?_eq_some hfind, by simpa using List.find?_some hfind, hvalue⟩
      cases hx.regular.apart with
      | dict hapart _ =>
        have hboth := not_sameKey_both Prod.fst (fun e he => ⟨hx.hashable_key he, hx.key he⟩)
          (fun e he => hy.key he) hapart
        refine equal_iff.mpr (.dict hlength.symm fun e' he' => ?_)
        obtain ⟨e, he, hsame, hvalue⟩ := exists_of_length_eq hlength hfound
          (hboth.imp fun h e' he' hleft hright => Bool.eq_false_iff.mp (h e' he' hleft.1) hright.1) e' he'
        refine ⟨e, ?_, ihvalue e he (hx.value he) (hy.value he') hvalue⟩
        exact hx.find?_entry he (hy.hashable_key he') (hy.key he') (sameKey_symm (hx.hashable_key he) hsame)
  | set xs ih =>
    cases equal_iff.mp h with
    | @set _ ys hlength hparts =>
      cases hx.regular.apart with
      | set hapart =>
        have hboth := not_sameKey_both id (fun d hd => ⟨hx.hashable_of_mem hd, hx.of_mem_set hd⟩)
          (fun d hd => hy.of_mem_set hd) hapart
        refine equal_iff.mpr (.set hlength.symm fun d' hd' => ?_)
        obtain ⟨d, hd, hsame⟩ := exists_of_length_eq hlength hparts
          (hboth.imp fun h d' hd' hleft => Bool.eq_false_iff.mp (h d' hd' hleft)) d' hd'
        exact ⟨d, hd, sameKey_symm (hx.hashable_of_mem hd) hsame⟩

theorem Exact.equal_trans (hx : x.Exact) (hy : y.Exact) (hz : z.Exact) (hxy : x.equal y = true)
    (hyz : y.equal z = true) : x.equal z = true := by
  induction x using parts_induction generalizing y z with
  | atom a => exact equal_atom_trans hx hy hz hxy hyz
  | builtin name => exact equal_key_trans rfl hx hy hz hxy hyz
  | closure id name pattern body => exact equal_key_trans rfl hx hy hz hxy hyz
  | list xs ih =>
    cases equal_iff.mp hxy with
    | list hparts =>
      cases equal_iff.mp hyz with
      | list hparts' =>
        refine equal_iff.mpr (.list (forall₂_trans (fun x hx' y hy' z hz' => ?_) hparts hparts'))
        exact ih x hx' (hx.of_mem_list hx') (hy.of_mem_list hy') (hz.of_mem_list hz')
  | tuple xs ih =>
    cases equal_iff.mp hxy with
    | tuple hparts =>
      cases equal_iff.mp hyz with
      | tuple hparts' =>
        refine equal_iff.mpr (.tuple (forall₂_trans (fun x hx' y hy' z hz' => ?_) hparts hparts'))
        exact ih x hx' (hx.of_mem_tuple hx') (hy.of_mem_tuple hy') (hz.of_mem_tuple hz')
  | dict xs ihkey ihvalue =>
    cases equal_iff.mp hxy with
    | dict hlength hparts =>
      cases equal_iff.mp hyz with
      | dict hlength' hparts' =>
        refine equal_iff.mpr (.dict (hlength.trans hlength') fun e he => ?_)
        obtain ⟨e', hfind, hvalue⟩ := hparts e he
        have hmem := List.mem_of_find?_eq_some hfind
        obtain ⟨e'', hfind', hvalue'⟩ := hparts' e' hmem
        have hmem' := List.mem_of_find?_eq_some hfind'
        have hsame : e.1.sameKey e''.1 = true := sameKey_trans (hx.hashable_key he) (hx.key he) (hy.key hmem)
          (hz.key hmem') (by simpa using List.find?_some hfind) (by simpa using List.find?_some hfind')
        refine ⟨e'', hz.find?_entry hmem' (hx.hashable_key he) (hx.key he) hsame, ?_⟩
        exact ihvalue e he (hx.value he) (hy.value hmem) (hz.value hmem') hvalue hvalue'
  | set xs ih =>
    cases equal_iff.mp hxy with
    | set hlength hparts =>
      cases equal_iff.mp hyz with
      | set hlength' hparts' =>
        refine equal_iff.mpr (.set (hlength.trans hlength') fun d hd => ?_)
        obtain ⟨d', hd', hsame⟩ := hparts d hd
        obtain ⟨d'', hd'', hsame'⟩ := hparts' d' hd'
        exact ⟨d'', hd'', sameKey_trans (hx.hashable_of_mem hd) (hx.of_mem_set hd) (hy.of_mem_set hd')
          (hz.of_mem_set hd'') hsame hsame'⟩

/-- How sequences are ordered: by their first members that are not equal, or by their lengths. -/
inductive FirstDifference : List Datum → List Datum → Ordering → Prop
  | none : FirstDifference [] [] .eq
  | shorter (y : Datum) (ys : List Datum) : FirstDifference [] (y :: ys) .lt
  | longer (x : Datum) (xs : List Datum) : FirstDifference (x :: xs) [] .gt
  | skip {x y : Datum} {xs ys : List Datum} {o : Ordering} (hequal : x.equal y = true)
      (h : FirstDifference xs ys o) : FirstDifference (x :: xs) (y :: ys) o
  | here {x y : Datum} {o : Ordering} (xs ys : List Datum) (hequal : x.equal y = false)
      (h : x.order y = .ok o) : FirstDifference (x :: xs) (y :: ys) o

variable {xs ys zs : List Datum}

theorem orderAll_iff : orderAll xs ys = .ok o ↔ FirstDifference xs ys o := by
  constructor
  · intro h
    induction xs generalizing ys with
    | nil =>
      cases ys with
      | nil =>
        cases h
        exact .none
      | cons y ys =>
        cases h
        exact .shorter y ys
    | cons x xs ih =>
      cases ys with
      | nil =>
        cases h
        exact .longer x xs
      | cons y ys =>
        rw [orderAll] at h
        split at h
        · next hequal => exact .skip hequal (ih h)
        · next hequal => exact .here xs ys (Bool.eq_false_iff.mpr hequal) h
  · intro h
    induction h with
    | none | shorter | longer => rfl
    | skip hequal _ ih => rwa [orderAll, if_pos hequal]
    | here xs ys hequal h => rwa [orderAll, if_neg (Bool.eq_false_iff.mp hequal)]

/-- What has an order: atoms of some kinds, and two lists or two tuples. -/
inductive OrderedBy : Datum → Datum → Ordering → Prop
  | atom {a b : Atom} {o : Ordering} (h : compareAtoms a b = .ok o) : OrderedBy (.atom a) (.atom b) o
  | list {xs ys : List Datum} {o : Ordering} (h : FirstDifference xs ys o) :
      OrderedBy (.list xs) (.list ys) o
  | tuple {xs ys : List Datum} {o : Ordering} (h : FirstDifference xs ys o) :
      OrderedBy (.tuple xs) (.tuple ys) o

theorem order_iff : x.order y = .ok o ↔ OrderedBy x y o := by
  constructor
  · intro h
    unfold order at h
    split at h
    · exact .atom h
    · exact .list (orderAll_iff.mp h)
    · exact .tuple (orderAll_iff.mp h)
    · cases h
  · intro h
    cases h with
    | atom h => exact h
    | list h => exact orderAll_iff.mpr h
    | tuple h => exact orderAll_iff.mpr h

theorem FirstDifference.swap (hxs : ∀ x ∈ xs, x.Exact) (hys : ∀ y ∈ ys, y.Exact)
    (hstep : ∀ x ∈ xs, ∀ y, y.Exact → ∀ o, x.order y = .ok o → y.order x = .ok o.swap)
    (h : FirstDifference xs ys o) : FirstDifference ys xs o.swap := by
  induction h with
  | none => exact .none
  | shorter y ys => exact .longer y ys
  | longer x xs => exact .shorter x xs
  | skip hequal _ ih =>
    obtain ⟨hx, hxs⟩ := List.forall_mem_cons.mp hxs
    obtain ⟨hy, hys⟩ := List.forall_mem_cons.mp hys
    exact .skip (hx.equal_symm hy hequal) (ih hxs hys (List.forall_mem_cons.mp hstep).2)
  | here xs ys hequal h =>
    obtain ⟨hx, hxs⟩ := List.forall_mem_cons.mp hxs
    obtain ⟨hy, hys⟩ := List.forall_mem_cons.mp hys
    refine .here ys xs (Bool.eq_false_iff.mpr fun hback => ?_) ((List.forall_mem_cons.mp hstep).1 _ hy _ h)
    rw [hy.equal_symm hx hback] at hequal
    cases hequal

theorem order_swap (hx : x.Exact) (hy : y.Exact) (h : x.order y = .ok o) : y.order x = .ok o.swap := by
  induction x using parts_induction generalizing y o with
  | atom a =>
    cases order_iff.mp h with
    | atom h =>
      obtain ⟨s, hs⟩ := hx.means
      obtain ⟨t, ht⟩ := hy.means
      exact order_iff.mpr (.atom ((ht.compare_iff hs).mpr (Meaning.compare?_swap ((hs.compare_iff ht).mp h))))
  | list xs ih =>
    cases order_iff.mp h with
    | list h =>
      refine order_iff.mpr (.list (h.swap (fun x => hx.of_mem_list) (fun y => hy.of_mem_list) ?_))
      exact fun x hmem y hy o h => ih x hmem (hx.of_mem_list hmem) hy h
  | tuple xs ih =>
    cases order_iff.mp h with
    | tuple h =>
      refine order_iff.mpr (.tuple (h.swap (fun x => hx.of_mem_tuple) (fun y => hy.of_mem_tuple) ?_))
      exact fun x hmem y hy o h => ih x hmem (hx.of_mem_tuple hmem) hy h
  | dict | set | builtin | closure => cases order_iff.mp h

theorem FirstDifference.eq_iff
    (hstep : ∀ x ∈ xs, ∀ y ∈ ys, ∀ o, x.order y = .ok o → (o = .eq ↔ x.equal y = true))
    (h : FirstDifference xs ys o) :
    o = .eq ↔ List.Forall₂ (fun x y => x.equal y = true) xs ys := by
  induction h with
  | none => simp
  | shorter | longer => simp
  | skip hequal _ ih =>
    rw [ih fun x hx y hy => hstep x (List.mem_cons_of_mem _ hx) y (List.mem_cons_of_mem _ hy),
      List.forall₂_cons, and_iff_right hequal]
  | here xs ys hequal h =>
    rw [hstep _ List.mem_cons_self _ List.mem_cons_self _ h, List.forall₂_cons, hequal]
    simp

theorem order_eq_iff (hx : x.Exact) (hy : y.Exact) (h : x.order y = .ok o) :
    o = .eq ↔ x.equal y = true := by
  induction x using parts_induction generalizing y o with
  | atom a =>
    cases order_iff.mp h with
    | atom h =>
      obtain ⟨s, hs⟩ := hx.means
      obtain ⟨t, ht⟩ := hy.means
      rw [equal, hs.equal_iff ht]
      exact Meaning.compare?_eq_iff ((hs.compare_iff ht).mp h)
  | list xs ih =>
    cases order_iff.mp h with
    | list h =>
      rw [equal, equalAll_iff]
      refine h.eq_iff fun x hmem y hmem' o h => ?_
      exact ih x hmem (hx.of_mem_list hmem) (hy.of_mem_list hmem') h
  | tuple xs ih =>
    cases order_iff.mp h with
    | tuple h =>
      rw [equal, equalAll_iff]
      refine h.eq_iff fun x hmem y hmem' o h => ?_
      exact ih x hmem (hx.of_mem_tuple hmem) (hy.of_mem_tuple hmem') h
  | dict | set | builtin | closure => cases order_iff.mp h

theorem FirstDifference.congr {xs' : List Datum} (hxs : ∀ x ∈ xs, x.Exact) (hxs' : ∀ x ∈ xs', x.Exact)
    (hys : ∀ y ∈ ys, y.Exact) (hequal : List.Forall₂ (fun x x' => x.equal x' = true) xs xs')
    (hstep : ∀ x ∈ xs, ∀ x' ∈ xs', ∀ y ∈ ys, ∀ o, x.equal x' = true → x.order y = .ok o → x'.order y = .ok o)
    (h : FirstDifference xs ys o) : FirstDifference xs' ys o := by
  induction h generalizing xs' with
  | none =>
    cases hequal
    exact .none
  | shorter y ys =>
    cases hequal
    exact .shorter y ys
  | longer x xs =>
    cases hequal with
    | cons => exact .longer _ _
  | skip hxy _ ih =>
    cases hequal with
    | cons hxx' htail =>
      obtain ⟨hx, hxs⟩ := List.forall_mem_cons.mp hxs
      obtain ⟨hx', hxs'⟩ := List.forall_mem_cons.mp hxs'
      obtain ⟨hy, hys⟩ := List.forall_mem_cons.mp hys
      refine .skip (hx'.equal_trans hx hy (hx.equal_symm hx' hxx') hxy) (ih hxs hxs' hys htail ?_)
      exact fun x hx x' hx' y hy => hstep x (List.mem_cons_of_mem _ hx) x' (List.mem_cons_of_mem _ hx') y
        (List.mem_cons_of_mem _ hy)
  | here xs ys hxy h =>
    cases hequal with
    | cons hxx' htail =>
      obtain ⟨hx, hxs⟩ := List.forall_mem_cons.mp hxs
      obtain ⟨hx', hxs'⟩ := List.forall_mem_cons.mp hxs'
      obtain ⟨hy, hys⟩ := List.forall_mem_cons.mp hys
      refine .here _ ys (Bool.eq_false_iff.mpr fun hx'y => ?_)
        (hstep _ List.mem_cons_self _ List.mem_cons_self _ List.mem_cons_self _ hxx' h)
      rw [hx.equal_trans hx' hy hxx' hx'y] at hxy
      cases hxy

/-- Equal data have the same order with others. -/
theorem order_congr {x' : Datum} (hx : x.Exact) (hx' : x'.Exact) (hy : y.Exact) (hequal : x.equal x' = true)
    (h : x.order y = .ok o) : x'.order y = .ok o := by
  induction x using parts_induction generalizing x' y o with
  | atom a =>
    cases order_iff.mp h with
    | atom h =>
      cases equal_iff.mp hequal with
      | atom hsame =>
        obtain ⟨s, hs⟩ := hx.means
        obtain ⟨s', hs'⟩ := hx'.means
        obtain ⟨t, ht⟩ := hy.means
        obtain rfl := (hs.equal_iff hs').mp hsame
        exact order_iff.mpr (.atom ((hs'.compare_iff ht).mpr ((hs.compare_iff ht).mp h)))
  | list xs ih =>
    cases order_iff.mp h with
    | list h =>
      cases equal_iff.mp hequal with
      | list hparts =>
        refine order_iff.mpr (.list (h.congr (fun x => hx.of_mem_list) (fun x => hx'.of_mem_list)
          (fun y => hy.of_mem_list) hparts ?_))
        exact fun x hmem x' hmem' y hmemy o => ih x hmem (hx.of_mem_list hmem) (hx'.of_mem_list hmem')
          (hy.of_mem_list hmemy)
  | tuple xs ih =>
    cases order_iff.mp h with
    | tuple h =>
      cases equal_iff.mp hequal with
      | tuple hparts =>
        refine order_iff.mpr (.tuple (h.congr (fun x => hx.of_mem_tuple) (fun x => hx'.of_mem_tuple)
          (fun y => hy.of_mem_tuple) hparts ?_))
        exact fun x hmem x' hmem' y hmemy o => ih x hmem (hx.of_mem_tuple hmem) (hx'.of_mem_tuple hmem')
          (hy.of_mem_tuple hmemy)
  | dict | set | builtin | closure => cases order_iff.mp h

theorem FirstDifference.trans (hxs : ∀ x ∈ xs, x.Exact) (hys : ∀ y ∈ ys, y.Exact) (hzs : ∀ z ∈ zs, z.Exact)
    (hstep : ∀ x ∈ xs, ∀ y ∈ ys, ∀ z ∈ zs, x.order y = .ok .lt → y.order z = .ok .lt → x.order z = .ok .lt)
    (h : FirstDifference xs ys .lt) (h' : FirstDifference ys zs .lt) : FirstDifference xs zs .lt := by
  generalize ho : Ordering.lt = o at h
  induction h generalizing zs with
  | none | longer => cases ho
  | shorter y ys =>
    cases h' with
    | skip | here => exact .shorter _ _
  | @skip x y xs ys o hxy h ih =>
    obtain ⟨hx, hxs⟩ := List.forall_mem_cons.mp hxs
    obtain ⟨hy, hys⟩ := List.forall_mem_cons.mp hys
    cases h' with
    | @skip _ z _ zs _ hyz h' =>
      obtain ⟨hz, hzs⟩ := List.forall_mem_cons.mp hzs
      refine .skip (hx.equal_trans hy hz hxy hyz) (ih hxs hys hzs ?_ h' ho)
      exact fun x hx y hy z hz => hstep x (List.mem_cons_of_mem _ hx) y (List.mem_cons_of_mem _ hy) z
        (List.mem_cons_of_mem _ hz)
    | @here _ z _ _ zs hyz h' =>
      have hz := (List.forall_mem_cons.mp hzs).1
      refine .here xs zs (Bool.eq_false_iff.mpr fun hxz => ?_)
        (order_congr hy hx hz (hx.equal_symm hy hxy) (by rwa [← ho]))
      rw [hy.equal_trans hx hz (hx.equal_symm hy hxy) hxz] at hyz
      cases hyz
  | @here x y o xs ys hxy h =>
    subst ho
    have hx := (List.forall_mem_cons.mp hxs).1
    have hy := (List.forall_mem_cons.mp hys).1
    cases h' with
    | @skip _ z _ zs _ hyz h' =>
      have hz := (List.forall_mem_cons.mp hzs).1
      refine .here xs zs (Bool.eq_false_iff.mpr fun hxz => ?_) ?_
      · rw [hx.equal_trans hz hy hxz (hy.equal_symm hz hyz)] at hxy
        cases hxy
      · exact order_swap hz hx (order_congr hy hz hx hyz (order_swap hx hy h))
    | @here _ z _ _ zs hyz h' =>
      have hz := (List.forall_mem_cons.mp hzs).1
      have hxz := hstep x List.mem_cons_self y List.mem_cons_self z List.mem_cons_self h h'
      exact .here xs zs (Bool.eq_false_iff.mpr fun hequal =>
        absurd ((order_eq_iff hx hz hxz).mpr hequal) (by decide)) hxz

theorem order_trans (hx : x.Exact) (hy : y.Exact) (hz : z.Exact) (h : x.order y = .ok .lt)
    (h' : y.order z = .ok .lt) : x.order z = .ok .lt := by
  induction x using parts_induction generalizing y z with
  | atom a =>
    cases order_iff.mp h with
    | atom h =>
      cases order_iff.mp h' with
      | atom h' =>
        obtain ⟨s, hs⟩ := hx.means
        obtain ⟨t, ht⟩ := hy.means
        obtain ⟨u, hu⟩ := hz.means
        refine order_iff.mpr (.atom ((hs.compare_iff hu).mpr ?_))
        exact Meaning.compare?_trans ((hs.compare_iff ht).mp h) ((ht.compare_iff hu).mp h')
  | list xs ih =>
    cases order_iff.mp h with
    | list h =>
      cases order_iff.mp h' with
      | list h' =>
        refine order_iff.mpr (.list (h.trans (fun x => hx.of_mem_list) (fun y => hy.of_mem_list)
          (fun z => hz.of_mem_list) ?_ h'))
        exact fun x hmem y hmemy z hmemz => ih x hmem (hx.of_mem_list hmem) (hy.of_mem_list hmemy)
          (hz.of_mem_list hmemz)
  | tuple xs ih =>
    cases order_iff.mp h with
    | tuple h =>
      cases order_iff.mp h' with
      | tuple h' =>
        refine order_iff.mpr (.tuple (h.trans (fun x => hx.of_mem_tuple) (fun y => hy.of_mem_tuple)
          (fun z => hz.of_mem_tuple) ?_ h'))
        exact fun x hmem y hmemy z hmemz => ih x hmem (hx.of_mem_tuple hmem) (hy.of_mem_tuple hmemy)
          (hz.of_mem_tuple hmemz)
  | dict | set | builtin | closure => cases order_iff.mp h

/-- On data without NaN whose keys are apart and whose integers are at most `2^53` in size, equality is an
equivalence. The order is defined both ways or neither, and then one way is the other turned round; it is
`.eq` on equal data only, and `.lt` is transitive. -/
theorem equal_order_laws {x y z : Datum}
    (h : ∀ d ∈ [x, y, z], d.Regular ∧ ∀ i, PartOf (.int i) d → i.toInt.natAbs ≤ 2 ^ 53) :
    x.equal x = true ∧ (x.equal y = true → y.equal x = true) ∧
    (x.equal y = true → y.equal z = true → x.equal z = true) ∧
    (∀ o, x.order y = .ok o → y.order x = .ok o.swap ∧ (o = .eq ↔ x.equal y = true)) ∧
    ((∃ e, x.order y = .error e) → ∃ e, y.order x = .error e) ∧
    (x.order y = .ok .lt → y.order z = .ok .lt → x.order z = .ok .lt) := by
  have hexact (d : Datum) (hd : d ∈ [x, y, z]) : d.Exact :=
    ⟨(h d hd).1, fun i hi => isExact_of_small ((h d hd).2 i hi)⟩
  have hx := hexact x (by simp)
  have hy := hexact y (by simp)
  have hz := hexact z (by simp)
  refine ⟨hx.regular.equal_self, hx.equal_symm hy, hx.equal_trans hy hz,
    fun o ho => ⟨order_swap hx hy ho, order_eq_iff hx hy ho⟩, fun ⟨e, he⟩ => ?_, order_trans hx hy hz⟩
  cases hback : y.order x with
  | error e' => exact ⟨e', rfl⟩
  | ok o =>
    rw [order_swap hy hx hback] at he
    cases he

/-- Lists that begin with equal dicts, which have no order. -/
theorem equal_order_laws_mixed :
    (Datum.list [.dict [(.int 1, .null)], .float 2]).order (.list [.dict [(.int 1, .null)], .int 4]) =
      .ok .lt := by
  have hshape (p : Datum) (a b : Atom)
      (hp : PartOf p (.list [.dict [(.atom a, .null)], .atom b])) (hatom : ∃ c, p = .atom c) :
      p = .atom a ∨ p = .null ∨ p = .atom b := by
    obtain ⟨c, rfl⟩ := hatom
    cases hp with
    | list hmem hp =>
      rcases List.mem_cons.mp hmem with rfl | hmem
      · cases hp with
        | key hentry hp =>
          obtain rfl := List.mem_singleton.mp hentry
          cases hp
          exact .inl rfl
        | value hentry hp =>
          obtain rfl := List.mem_singleton.mp hentry
          cases hp
          exact .inr (.inl rfl)
      · obtain rfl := List.mem_singleton.mp hmem
        cases hp
        exact .inr (.inr rfl)
  have hregular (a b : Atom) (ha : ∀ f, a = .float f → f.isNaN = false)
      (hb : ∀ f, b = .float f → f.isNaN = false) (hi : ∀ i, a = .int i → i.toInt.natAbs ≤ 2 ^ 53)
      (hj : ∀ i, b = .int i → i.toInt.natAbs ≤ 2 ^ 53) :
      (Datum.list [.dict [(.atom a, .null)], .atom b]).Regular ∧
        ∀ i, PartOf (.int i) (.list [.dict [(.atom a, .null)], .atom b]) → i.toInt.natAbs ≤ 2 ^ 53 := by
    refine ⟨⟨.list ?_, .list ?_, fun f hf => ?_⟩, fun i hi' => ?_⟩
    · refine List.forall_mem_cons.mpr ⟨.dict ?_ ?_ ?_, List.forall_mem_singleton.mpr (.atom _)⟩
      · exact List.forall_mem_singleton.mpr rfl
      · exact List.forall_mem_singleton.mpr (.atom _)
      · exact List.forall_mem_singleton.mpr (.atom _)
    · refine List.forall_mem_cons.mpr ⟨.dict (List.pairwise_singleton _ _) ?_,
        List.forall_mem_singleton.mpr (.atom _)⟩
      exact List.forall_mem_singleton.mpr (.atom _)
    · rcases hshape _ a b hf ⟨_, rfl⟩ with heq | heq | heq
      · exact ha f (Datum.atom.inj heq).symm
      · cases heq
      · exact hb f (Datum.atom.inj heq).symm
    · rcases hshape _ a b hi' ⟨_, rfl⟩ with heq | heq | heq
      · exact hi i (Datum.atom.inj heq).symm
      · cases heq
      · exact hj i (Datum.atom.inj heq).symm
  have hlaws := equal_order_laws (x := .list [.dict [(.int 1, .null)], .float 2])
    (y := .list [.dict [(.float 1, .null)], .int 3]) (z := .list [.dict [(.int 1, .null)], .int 4])
    (List.forall_mem_cons.mpr ⟨hregular _ _ nofun (fun f hf => by cases hf; decide +kernel)
        (fun i hi => by cases hi; decide) nofun,
      List.forall_mem_cons.mpr ⟨hregular _ _ (fun f hf => by cases hf; decide +kernel) nofun nofun
          (fun i hi => by cases hi; decide),
        List.forall_mem_singleton.mpr (hregular _ _ nofun nofun (fun i hi => by cases hi; decide)
          (fun i hi => by cases hi; decide))⟩⟩)
  exact hlaws.2.2.2.2.2 (by decide +kernel) (by decide +kernel)

end Datum

end EventTally
