import EventTally.Proofs.Datum.Equality

/-! # Shape of data

When two data are the same at every position, dicts and sets up to their order, and what it means that
the keys of a datum are told apart.
-/

namespace EventTally.Datum

/-- The same kind and the same scalar at every position. Dicts and sets are compared as unordered:
the entries of the one, in some order, match those of the other one by one. -/
inductive Identical : Datum → Datum → Prop
  | atom (a : Atom) : Identical (.atom a) (.atom a)
  | list {xs ys : List Datum} (hlength : xs.length = ys.length)
      (h : ∀ p ∈ xs.zip ys, Identical p.1 p.2) : Identical (.list xs) (.list ys)
  | tuple {xs ys : List Datum} (hlength : xs.length = ys.length)
      (h : ∀ p ∈ xs.zip ys, Identical p.1 p.2) : Identical (.tuple xs) (.tuple ys)
  | dict {xs ys zs : List (Datum × Datum)} (horder : xs.Perm zs) (hlength : zs.length = ys.length)
      (hkey : ∀ p ∈ zs.zip ys, Identical p.1.1 p.2.1)
      (hvalue : ∀ p ∈ zs.zip ys, Identical p.1.2 p.2.2) : Identical (.dict xs) (.dict ys)
  | set {xs ys zs : List Datum} (horder : xs.Perm zs) (hlength : zs.length = ys.length)
      (h : ∀ p ∈ zs.zip ys, Identical p.1 p.2) : Identical (.set xs) (.set ys)
  | builtin (name : String) : Identical (.builtin name) (.builtin name)
  | closure (id : Nat) (name : String) (pattern body : Datum) :
      Identical (.closure id name pattern body) (.closure id name pattern body)

theorem mem_zip_self {α : Type} {xs : List α} {p : α × α} (h : p ∈ xs.zip xs) : p.1 ∈ xs ∧ p.2 = p.1 := by
  rw [List.zip, List.zipWith_self, List.mem_map] at h
  obtain ⟨x, hx, rfl⟩ := h
  exact ⟨hx, rfl⟩

theorem Identical.refl (d : Datum) : Identical d d := by
  have hzip {α : Type} {key : α → Datum} {xs : List α} (h : ∀ x ∈ xs, Identical (key x) (key x)) :
      ∀ p ∈ xs.zip xs, Identical (key p.1) (key p.2) := by
    intro p hp
    obtain ⟨hmem, heq⟩ := mem_zip_self hp
    rw [heq]
    exact h _ hmem
  induction d using parts_induction with
  | atom a => exact .atom a
  | list ds ih => exact .list rfl (hzip ih)
  | tuple ds ih => exact .tuple rfl (hzip ih)
  | dict es ih ih' => exact .dict (.refl es) rfl (hzip ih) (hzip ih')
  | set ds ih => exact .set (.refl ds) rfl (hzip ih)
  | builtin name => exact .builtin name
  | closure id name pattern body => exact .closure id name pattern body

/-- A datum occurs in another, or is that datum. -/
inductive PartOf (p : Datum) : Datum → Prop
  | self : PartOf p p
  | list {ds : List Datum} {d : Datum} (hmem : d ∈ ds) (h : PartOf p d) : PartOf p (.list ds)
  | tuple {ds : List Datum} {d : Datum} (hmem : d ∈ ds) (h : PartOf p d) : PartOf p (.tuple ds)
  | key {es : List (Datum × Datum)} {e : Datum × Datum} (hmem : e ∈ es) (h : PartOf p e.1) :
      PartOf p (.dict es)
  | value {es : List (Datum × Datum)} {e : Datum × Datum} (hmem : e ∈ es) (h : PartOf p e.2) :
      PartOf p (.dict es)
  | set {ds : List Datum} {d : Datum} (hmem : d ∈ ds) (h : PartOf p d) : PartOf p (.set ds)

/-- In every dict and set of a datum no two keys are equal. The keys themselves hold no dicts and sets,
as they are hashable. -/
inductive KeysApart : Datum → Prop
  | atom (a : Atom) : KeysApart (.atom a)
  | list {ds : List Datum} (h : ∀ d ∈ ds, KeysApart d) : KeysApart (.list ds)
  | tuple {ds : List Datum} (h : ∀ d ∈ ds, KeysApart d) : KeysApart (.tuple ds)
  | dict {es : List (Datum × Datum)} (hapart : es.Pairwise fun e e' => e.1.equal e'.1 = false)
      (h : ∀ e ∈ es, KeysApart e.2) : KeysApart (.dict es)
  | set {ds : List Datum} (hapart : ds.Pairwise fun d d' => d.equal d' = false) : KeysApart (.set ds)
  | builtin (name : String) : KeysApart (.builtin name)
  | closure (id : Nat) (name : String) (pattern body : Datum) :
      KeysApart (.closure id name pattern body)

theorem sameKey_symm {k l : Datum} (hk : k.hashable = true) (h : k.sameKey l = true) :
    l.sameKey k = true := by
  obtain ⟨hequal, hhash⟩ := sameKey_iff.mp h
  exact sameKey_iff.mpr ⟨equal_symm hk hequal, hhash.symm⟩

theorem not_sameKey_of_not_equal {k l : Datum} (h : k.equal l = false) : k.sameKey l = false := by
  rw [sameKey, h, Bool.false_and]

theorem pairwise_apart_perm {α : Type} (key : α → Datum) {xs ys : List α}
    (hkey : ∀ x ∈ xs, (key x).hashable = true)
    (h : xs.Pairwise fun x y => (key x).equal (key y) = false) (horder : xs.Perm ys) :
    ys.Pairwise fun x y => (key x).equal (key y) = false ∧ (key y).equal (key x) = false := by
  refine horder.pairwise ?_ fun hxy => hxy.symm
  refine h.imp_of_mem fun {x y} hx hy hxy => ⟨hxy, Bool.eq_false_iff.mpr fun hyx => ?_⟩
  rw [equal_symm (hkey y hy) hyx] at hxy
  cases hxy

/-- In a collection whose keys are apart no key is found for another one, in whatever order the keys
come. -/
theorem pairwise_not_sameKey {α : Type} (key : α → Datum) {xs ys : List α}
    (hkey : ∀ x ∈ xs, (key x).hashable = true)
    (h : xs.Pairwise fun x y => (key x).equal (key y) = false) (horder : xs.Perm ys) :
    ys.Pairwise fun x y => (key y).sameKey (key x) = false :=
  (pairwise_apart_perm key hkey h horder).imp fun hxy => not_sameKey_of_not_equal hxy.2

end EventTally.Datum
