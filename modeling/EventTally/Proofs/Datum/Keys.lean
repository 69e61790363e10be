import EventTally.Proofs.Datum.Hash
import EventTally.Proofs.Datum.Shape

/-! # Keys that are the same

Being the same key, which is being equal with one hash, is transitive as far as atoms are concerned:
the hash tells an integer that is no double from the doubles near it. A datum without NaN whose keys
are apart is equal to itself. Removing some keys from such a collection leaves the others as they were.
-/

namespace EventTally

theorem Atom.isExact_of_hash_eq {i : Int64} {f : Float} (h : (Decimal.ofInt64 i == f) = true)
    (hhash : Datum.hashAtom (.int i) = Datum.hashAtom (.float f)) : Decimal.IsExact i :=
  (Datum.hashFloat_eq_iff h).mp hhash.symm

theorem Atom.equal_of_equal_of_hash_eq {a b c : Atom} (h : a.equal b = true) (h' : c.equal b = true)
    (hhash : Datum.hashAtom a = Datum.hashAtom b) (hhash' : Datum.hashAtom c = Datum.hashAtom b) :
    a.equal c = true := by
  unfold Atom.equal at h
  split at h
  · rwa [Atom.equal_comm]
  · rw [eq_of_beq h, Atom.equal_comm]
    exact h'
  · rw [eq_of_beq h, Atom.equal_comm]
    exact h'
  · next i f =>
    cases c with
    | int j =>
      -- Both integers are doubles, and equal to the same one.
      have hi : Decimal.integer? f = some i.toInt :=
        (Decimal.integer?_congr h).symm.trans (Atom.isExact_of_hash_eq h hhash)
      have hj : Decimal.integer? f = some j.toInt :=
        (Decimal.integer?_congr h').symm.trans (Atom.isExact_of_hash_eq h' hhash')
      have hij : i = j := Int64.toInt_inj.mp (Option.some.inj (hi.symm.trans hj))
      exact beq_iff_eq.mpr hij
    | float g =>
      have hfg : (f == g) = true := by
        rw [BEq.comm]
        exact h'
      exact BEq.trans h hfg
    | _ => cases h'
  · next f i =>
    cases c with
    | int j =>
      obtain rfl := eq_of_beq (show (j == i) = true from h')
      exact h
    | float g =>
      have hig : (Decimal.ofInt64 i == g) = true := by
        rw [BEq.comm]
        exact h'
      exact BEq.trans h hig
    | _ => cases h'
  · next f g =>
    cases c with
    | int j =>
      have hgj : (g == Decimal.ofInt64 j) = true := by
        rw [BEq.comm]
        exact h'
      exact BEq.trans h hgj
    | float k =>
      have hgk : (g == k) = true := by
        rw [BEq.comm]
        exact h'
      exact BEq.trans h hgk
    | _ => cases h'
  · rw [eq_of_beq h, Atom.equal_comm]
    exact h'
  · rw [eq_of_beq h, Atom.equal_comm]
    exact h'
  · cases h

theorem Atom.equal_self {a : Atom} (h : ∀ f, a = .float f → f.isNaN = false) : a.equal a = true := by
  cases a with
  | float f => exact Float.beq_self_iff.mpr (by simpa using h f rfl)
  | _ => simp [Atom.equal]

namespace Datum

theorem eq_atom_of_sameKey {a : Atom} {x : Datum} (h : (Datum.atom a).sameKey x = true) :
    ∃ b, x = .atom b := by
  cases equal_iff.mp (sameKey_iff.mp h).1 with
  | atom _ => exact ⟨_, rfl⟩

theorem sameKey_atom_trans {a : Atom} {x y : Datum} (h : (Datum.atom a).sameKey y = true)
    (h' : x.sameKey y = true) : (Datum.atom a).sameKey x = true := by
  obtain ⟨hequal, hhash⟩ := sameKey_iff.mp h
  obtain ⟨hequal', hhash'⟩ := sameKey_iff.mp h'
  cases equal_iff.mp hequal with
  | atom hab =>
    cases equal_iff.mp hequal' with
    | atom hcb =>
      refine sameKey_iff.mpr ⟨equal_iff.mpr (.atom ?_), hhash.trans hhash'.symm⟩
      exact Atom.equal_of_equal_of_hash_eq hab hcb hhash hhash'

theorem not_sameKey_of_sameKey {a : Atom} {x y : Datum} (hne : (Datum.atom a).sameKey x = false)
    (h : x.sameKey y = true) : (Datum.atom a).sameKey y = false := by
  refine Bool.eq_false_iff.mpr fun hy => ?_
  rw [sameKey_atom_trans hy h] at hne
  cases hne

theorem sameKey_atom_comm (a b : Atom) :
    (Datum.atom a).sameKey (.atom b) = (Datum.atom b).sameKey (.atom a) := by
  unfold sameKey
  rw [equal, equal, Atom.equal_comm, BEq.comm]

theorem sameKey_of_both {a : Atom} {x y : Datum} (hx : (Datum.atom a).sameKey x = true)
    (hy : (Datum.atom a).sameKey y = true) : x.sameKey y = true := by
  obtain ⟨b, rfl⟩ := eq_atom_of_sameKey hx
  obtain ⟨c, rfl⟩ := eq_atom_of_sameKey hy
  rw [sameKey_atom_comm] at hx hy
  exact sameKey_atom_trans hx hy

def NoNaN (d : Datum) : Prop := ∀ f, PartOf (.float f) d → f.isNaN = false

theorem keysApart_of_hashable {d : Datum} (h : d.hashable = true) : d.KeysApart := by
  induction sound_of_hashable h with
  | atom a => exact .atom a
  | tuple _ ih =>
    rw [hashable, allHashable_iff] at h
    exact .tuple fun d hd => ih d hd (h d hd)
  | list | dict | set => cases h
  | builtin name => exact .builtin name
  | closure id name pattern body => exact .closure id name pattern body

theorem find?_eq_self {α : Type} {p : α → α → Bool} {xs : List α} {x : α}
    (h : xs.Pairwise fun x y => p y x = false) (hx : x ∈ xs) (hself : p x x = true) :
    xs.find? (p x) = some x := by
  induction h with
  | nil => cases hx
  | cons hhead _ ih =>
    rcases List.mem_cons.mp hx with rfl | hx
    · exact List.find?_cons_of_pos hself
    · rw [List.find?_cons_of_neg (by simp [hhead x hx])]
      exact ih hx

/-- No NaN occurs in a datum, its keys are hashable and in no dict or set are two of them the same. -/
structure Regular (d : Datum) : Prop where
  sound : d.Sound
  apart : d.KeysApart
  noNaN : d.NoNaN

namespace Regular

theorem of_mem_list {ds : List Datum} (h : (Datum.list ds).Regular) {d : Datum} (hd : d ∈ ds) :
    d.Regular := by
  cases h.sound with
  | list hsound =>
    cases h.apart with
    | list hapart => exact ⟨hsound d hd, hapart d hd, fun f hf => h.noNaN f (.list hd hf)⟩

theorem of_mem_tuple {ds : List Datum} (h : (Datum.tuple ds).Regular) {d : Datum} (hd : d ∈ ds) :
    d.Regular := by
  cases h.sound with
  | tuple hsound =>
    cases h.apart with
    | tuple hapart => exact ⟨hsound d hd, hapart d hd, fun f hf => h.noNaN f (.tuple hd hf)⟩

theorem key {es : List (Datum × Datum)} (h : (Datum.dict es).Regular) {e : Datum × Datum} (he : e ∈ es) :
    e.1.Regular := by
  cases h.sound with
  | dict hhash hsound _ =>
    exact ⟨hsound e he, keysApart_of_hashable (hhash e he), fun f hf => h.noNaN f (.key he hf)⟩

theorem value {es : List (Datum × Datum)} (h : (Datum.dict es).Regular) {e : Datum × Datum}
    (he : e ∈ es) : e.2.Regular := by
  cases h.sound with
  | dict _ _ hsound =>
    cases h.apart with
    | dict _ hapart => exact ⟨hsound e he, hapart e he, fun f hf => h.noNaN f (.value he hf)⟩

theorem of_mem_set {ds : List Datum} (h : (Datum.set ds).Regular) {d : Datum} (hd : d ∈ ds) :
    d.Regular := by
  cases h.sound with
  | set hhash hsound =>
    exact ⟨hsound d hd, keysApart_of_hashable (hhash d hd), fun f hf => h.noNaN f (.set hd hf)⟩

theorem find?_entry {es : List (Datum × Datum)} (h : (Datum.dict es).Regular) {e : Datum × Datum}
    (he : e ∈ es) (hkey : e.1.equal e.1 = true) : es.find? (fun e' => e.1.sameKey e'.1) = some e := by
  cases h.sound with
  | dict hhash _ _ =>
    cases h.apart with
    | dict hapart _ =>
      exact find?_eq_self (p := fun e e' => e.1.sameKey e'.1)
        (pairwise_not_sameKey Prod.fst hhash hapart (.refl es)) he (sameKey_iff.mpr ⟨hkey, rfl⟩)

theorem equal_self {d : Datum} (h : d.Regular) : d.equal d = true := by
  induction d using parts_induction with
  | atom a =>
    refine equal_iff.mpr (.atom (Atom.equal_self fun f hf => h.noNaN f ?_))
    rw [hf]
    exact .self
  | list ds ih =>
    exact equal_iff.mpr (.list (List.forall₂_same.mpr fun d hd => ih d hd (h.of_mem_list hd)))
  | tuple ds ih =>
    exact equal_iff.mpr (.tuple (List.forall₂_same.mpr fun d hd => ih d hd (h.of_mem_tuple hd)))
  | dict es ihkey ihvalue =>
    refine equal_iff.mpr (.dict rfl fun e he => ⟨e, ?_, ihvalue e he (h.value he)⟩)
    exact h.find?_entry he (ihkey e he (h.key he))
  | set ds ih =>
    refine equal_iff.mpr (.set rfl fun d hd => ⟨d, hd, sameKey_iff.mpr ⟨?_, rfl⟩⟩)
    exact ih d hd (h.of_mem_set hd)
  | builtin name => exact equal_iff.mpr (.builtin name)
  | closure id name pattern body => exact equal_iff.mpr (.closure ..)

theorem equal_set_of_perm {ds ds' : List Datum} (h : (Datum.set ds).Regular) (hperm : ds.Perm ds') :
    (Datum.set ds).equal (.set ds') = true := by
  refine equal_iff.mpr (.set hperm.length_eq fun d hd => ⟨d, hperm.mem_iff.mp hd, ?_⟩)
  exact sameKey_iff.mpr ⟨(h.of_mem_set hd).equal_self, rfl⟩

end Regular

theorem find?_eraseP {α : Type} {p q : α → Bool} (xs : List α) (h : ∀ x, p x = true → q x = false) :
    (xs.eraseP q).find? p = xs.find? p := by
  induction xs with
  | nil => rfl
  | cons x xs ih =>
    cases hq : q x with
    | true =>
      have hp : p x = false := by
        by_contra hp
        rw [h x (by simpa using hp)] at hq
        cases hq
      rw [List.eraseP_cons_of_pos hq, List.find?_cons_of_neg (by simp [hp])]
    | false =>
      rw [List.eraseP_cons_of_neg (by simp [hq]), List.find?_cons, List.find?_cons, ih]

theorem not_of_mem_eraseP {α : Type} {q : α → Bool} {xs : List α}
    (h : xs.Pairwise fun x y => q x = true → q y = false) : ∀ x ∈ xs.eraseP q, q x = false := by
  induction h with
  | nil => simp
  | @cons x xs hhead _ ih =>
    cases hq : q x with
    | true =>
      rw [List.eraseP_cons_of_pos hq]
      exact fun y hy => hhead y hy hq
    | false =>
      rw [List.eraseP_cons_of_neg (by simp [hq])]
      exact List.forall_mem_cons.mpr ⟨hq, ih⟩

variable {α : Type} (key : α → Datum) {ks : List Atom} {xs : List α}

/-- The elements that are left when those with the given keys have been removed one by one. -/
def without (key : α → Datum) (ks : List Atom) (xs : List α) : List α :=
  ks.foldl (fun left k => left.eraseP fun x => (Datum.atom k).sameKey (key x)) xs

theorem without_cons (k : Atom) (ks : List Atom) (xs : List α) :
    without key (k :: ks) xs = without key ks (xs.eraseP fun x => (Datum.atom k).sameKey (key x)) := rfl

theorem without_sublist (ks : List Atom) (xs : List α) : (without key ks xs).Sublist xs := by
  induction ks generalizing xs with
  | nil => exact .refl xs
  | cons k ks ih => exact (ih _).trans List.eraseP_sublist

theorem find?_without (xs : List α) {d : Datum} (h : ∀ k ∈ ks, (Datum.atom k).sameKey d = false) :
    (without key ks xs).find? (fun x => d.sameKey (key x)) = xs.find? fun x => d.sameKey (key x) := by
  induction ks generalizing xs with
  | nil => rfl
  | cons k ks ih =>
    obtain ⟨hk, hks⟩ := List.forall_mem_cons.mp h
    rw [without_cons, ih _ hks, find?_eraseP _ fun x hx => not_sameKey_of_sameKey hk hx]

theorem not_sameKey_of_mem_without (hxs : xs.Pairwise fun x y => (key x).sameKey (key y) = false) :
    ∀ k ∈ ks, ∀ x ∈ without key ks xs, (Datum.atom k).sameKey (key x) = false := by
  induction ks generalizing xs with
  | nil => simp
  | cons k ks ih =>
    have hrest := hxs.sublist (List.eraseP_sublist (p := fun x => (Datum.atom k).sameKey (key x)))
    refine List.forall_mem_cons.mpr ⟨fun x hx => ?_, ih hrest⟩
    refine not_of_mem_eraseP (hxs.imp fun {x y} hxy hx => Bool.eq_false_iff.mpr fun hy => ?_) x
      ((without_sublist key ks _).subset hx)
    rw [sameKey_of_both hx hy] at hxy
    cases hxy

theorem length_without (hks : ks.Pairwise fun k l => (Datum.atom k).sameKey (.atom l) = false)
    (hfound : ∀ k ∈ ks, ∃ x ∈ xs, (Datum.atom k).sameKey (key x) = true) :
    ks.length + (without key ks xs).length = xs.length := by
  induction hks generalizing xs with
  | nil => simp [without]
  | @cons k ks hhead _ ih =>
    obtain ⟨⟨x, hx, hkx⟩, hrest⟩ := List.forall_mem_cons.mp hfound
    have hlength := List.length_eraseP_of_mem (p := fun x => (Datum.atom k).sameKey (key x)) hx hkx
    have hpos := List.length_pos_of_mem hx
    have hkept : ∀ l ∈ ks, ∃ y ∈ xs.eraseP (fun x => (Datum.atom k).sameKey (key x)),
        (Datum.atom l).sameKey (key y) = true := by
      intro l hl
      obtain ⟨y, hy, hly⟩ := hrest l hl
      have hky := not_sameKey_of_sameKey (hhead l hl) hly
      exact ⟨y, (List.mem_eraseP_of_neg (by simp [hky])).mpr hy, hly⟩
    have htail := ih hkept
    rw [without_cons, List.length_cons]
    omega

theorem eraseP_comm {p q : α → Bool} (h : ∀ x, p x = true → q x = false) (xs : List α) :
    (xs.eraseP p).eraseP q = (xs.eraseP q).eraseP p := by
  induction xs with
  | nil => rfl
  | cons x xs ih =>
    cases hp : p x with
    | true => simp [hp, h x hp]
    | false => cases hq : q x <;> simp [hp, hq, ih]

theorem without_perm {ks ks' : List Atom} (hperm : ks.Perm ks')
    (hks : ks.Pairwise fun k l => (Datum.atom k).sameKey (.atom l) = false) (xs : List α) :
    without key ks xs = without key ks' xs := by
  induction hperm generalizing xs with
  | nil => rfl
  | cons k _ ih => exact ih hks.tail _
  | swap k l ks =>
    rw [without_cons, without_cons, without_cons, without_cons, eraseP_comm]
    have hlk := List.rel_of_pairwise_cons hks List.mem_cons_self
    rw [sameKey_atom_comm] at hlk
    exact fun x hl => not_sameKey_of_sameKey hlk hl
  | trans hperm _ ih ih' =>
    have hks' := (hperm.pairwise_iff fun h => by rwa [sameKey_atom_comm]).mp hks
    exact (ih hks xs).trans (ih' hks' xs)

end Datum

end EventTally
