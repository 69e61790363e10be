import EventTally.Proofs.Codec
import EventTally.Proofs.Decimal.Integer

/-! # Equality of data

What `equal` says about the parts of two data, kind by kind (`equal_iff`). Equality of keys is
symmetric.
-/

namespace EventTally

theorem Atom.equal_comm (a b : Atom) : a.equal b = b.equal a := by
  cases a <;> cases b <;> simp only [Atom.equal, BEq.comm]

namespace Datum

theorem equalAll_iff {xs ys : List Datum} :
    equalAll xs ys = true ↔ List.Forall₂ (fun x y => x.equal y = true) xs ys := by
  induction xs generalizing ys with
  | nil => cases ys <;> simp [equalAll]
  | cons x xs ih => cases ys <;> simp [equalAll, ih]

theorem entriesIn_cons (k v : Datum) (xs ys : List (Datum × Datum)) :
    entriesIn ((k, v) :: xs) ys = ((match ys.find? (fun e' => k.sameKey e'.1) with
      | some e => v.equal e.2
      | none => false) && entriesIn xs ys) := by
  rw [entriesIn]
  rfl

theorem entriesIn_iff {xs ys : List (Datum × Datum)} :
    entriesIn xs ys = true ↔
      ∀ e ∈ xs, ∃ e', ys.find? (fun e' => e.1.sameKey e'.1) = some e' ∧ e.2.equal e'.2 = true := by
  induction xs with
  | nil => simp [entriesIn]
  | cons e xs ih =>
    obtain ⟨k, v⟩ := e
    rw [entriesIn_cons, Bool.and_eq_true, ih, List.forall_mem_cons]
    refine and_congr_left fun _ => ?_
    cases ys.find? (fun e' => k.sameKey e'.1) <;> simp

theorem elemsIn_iff {xs ys : List Datum} :
    elemsIn xs ys = true ↔ ∀ x ∈ xs, ∃ y ∈ ys, x.sameKey y = true := by
  induction xs with
  | nil => simp [elemsIn]
  | cons x xs ih =>
    rw [elemsIn, Bool.and_eq_true, ih, List.forall_mem_cons, List.any_eq_true]
    rfl

inductive EqualParts : Datum → Datum → Prop
  | atom {a b : Atom} (h : a.equal b = true) : EqualParts (.atom a) (.atom b)
  | list {xs ys : List Datum} (h : List.Forall₂ (fun x y => x.equal y = true) xs ys) :
      EqualParts (.list xs) (.list ys)
  | tuple {xs ys : List Datum} (h : List.Forall₂ (fun x y => x.equal y = true) xs ys) :
      EqualParts (.tuple xs) (.tuple ys)
  | dict {xs ys : List (Datum × Datum)} (hlength : xs.length = ys.length)
      (h : ∀ e ∈ xs, ∃ e', ys.find? (fun e' => e.1.sameKey e'.1) = some e' ∧ e.2.equal e'.2 = true) :
      EqualParts (.dict xs) (.dict ys)
  | set {xs ys : List Datum} (hlength : xs.length = ys.length)
      (h : ∀ x ∈ xs, ∃ y ∈ ys, x.sameKey y = true) : EqualParts (.set xs) (.set ys)
  | builtin (name : String) : EqualParts (.builtin name) (.builtin name)
  | closure (id : Nat) (name name' : String) (pattern pattern' body body' : Datum) :
      EqualParts (.closure id name pattern body) (.closure id name' pattern' body')

theorem equal_iff {x y : Datum} : x.equal y = true ↔ EqualParts x y := by
  constructor
  · intro h
    rw [equal.eq_def] at h
    split at h
    · exact .atom h
    · exact .list (equalAll_iff.mp h)
    · exact .tuple (equalAll_iff.mp h)
    · rw [Bool.and_eq_true, beq_iff_eq] at h
      exact .dict h.1 (entriesIn_iff.mp h.2)
    · rw [Bool.and_eq_true, beq_iff_eq] at h
      exact .set h.1 (elemsIn_iff.mp h.2)
    · obtain rfl := eq_of_beq h
      exact .builtin _
    · obtain rfl := eq_of_beq h
      exact .closure ..
    · cases h
  · intro h
    cases h with
    | atom h => rwa [equal]
    | list h => rwa [equal, equalAll_iff]
    | tuple h => rwa [equal, equalAll_iff]
    | dict hlength h => rw [equal, hlength, entriesIn_iff.mpr h, BEq.rfl]; rfl
    | set hlength h => rw [equal, hlength, elemsIn_iff.mpr h, BEq.rfl]; rfl
    | builtin name => rw [equal, BEq.rfl]
    | closure => rw [equal, BEq.rfl]

theorem sameKey_iff {x y : Datum} : x.sameKey y = true ↔ x.equal y = true ∧ x.hash = y.hash := by
  rw [sameKey, Bool.and_eq_true, beq_iff_eq]

theorem equal_symm {x y : Datum} (hx : x.hashable = true) (h : x.equal y = true) :
    y.equal x = true := by
  induction sound_of_hashable hx generalizing y with
  | atom a =>
    cases equal_iff.mp h with
    | atom hatom => exact equal_iff.mpr (.atom (by rwa [Atom.equal_comm]))
  | @tuple xs _ ih =>
    rw [hashable, allHashable_iff] at hx
    cases equal_iff.mp h with
    | tuple hparts =>
      have hall := (List.forall₂_and_left xs _).mpr
        ⟨fun x hmem y => ih x hmem (hx x hmem) (y := y), hparts⟩
      exact equal_iff.mpr (.tuple (hall.imp fun x y hxy => hxy.1 y hxy.2).flip)
  | list | dict | set => cases hx
  | builtin name =>
    cases equal_iff.mp h with
    | builtin => exact h
  | closure id name pattern body =>
    cases equal_iff.mp h with
    | closure => exact equal_iff.mpr (.closure ..)

end Datum

end EventTally
