import EventTally.Proofs.Datum.Equality

/-! # Equality and hash

A collection finds a key by its hash before it compares it, so equal keys should have one hash. They
do, unless an integer meets a float: the integer is rounded to a double when the two are compared, but
is hashed as it is. The hashes then agree if and only if the integer is a double (`Decimal.IsExact`), as
the integers up to `2^53` are.
-/

namespace EventTally

namespace Datum

theorem toNat_hashWord (w : UInt64) :
    (hashWord w).toNat = (w.toNat / 2 ^ 32 * 33 + w.toNat) % 2 ^ 32 := by
  unfold hashWord combineHash
  simp only [UInt32.toNat_add, UInt32.toNat_mul, UInt64.toNat_toUInt32, UInt64.toNat_shiftRight,
    Nat.shiftRight_eq_div_pow]
  have hshift : (32 : UInt64).toNat % 64 = 32 := rfl
  have hfactor : (33 : UInt32).toNat = 33 := rfl
  rw [hshift, hfactor]
  omega

theorem toNat_hashWord_toUInt64 (i : Int64) :
    ((hashWord i.toUInt64).toNat : Int) = (i.toInt / 2 ^ 32 * 33 + i.toInt) % 2 ^ 32 := by
  have hword : i.toUInt64.toNat = i.toBitVec.toNat := rfl
  have hbits : i.toInt = i.toBitVec.toInt := rfl
  have hlt := i.toBitVec.isLt
  rw [toNat_hashWord, hword, hbits, BitVec.toInt_eq_toNat_cond]
  split <;> omega

theorem hashWord_ne_of_lt {i j : Int64} (hlt : i.toInt < j.toInt) (hnear : j.toInt ≤ i.toInt + 1024) :
    hashWord i.toUInt64 ≠ hashWord j.toUInt64 := by
  intro h
  have hhash := congrArg (fun w => (w.toNat : Int)) h
  simp only [toNat_hashWord_toUInt64] at hhash
  -- The upper halves are the same or one apart, so the hashes are 1 to 1024 + 33 apart.
  have hupper : j.toInt / 2 ^ 32 = i.toInt / 2 ^ 32 ∨ j.toInt / 2 ^ 32 = i.toInt / 2 ^ 32 + 1 := by
    omega
  rcases hupper with hupper | hupper <;> rw [hupper] at hhash <;> omega

theorem hashWord_ne_of_near {i j : Int64} (hne : i ≠ j) (hle : i.toInt ≤ j.toInt + 1024)
    (hge : j.toInt ≤ i.toInt + 1024) : hashWord i.toUInt64 ≠ hashWord j.toUInt64 := by
  have hne' : i.toInt ≠ j.toInt := fun h => hne (Int64.toInt_inj.mp h)
  rcases Int.lt_or_gt_of_ne hne' with hlt | hgt
  · exact hashWord_ne_of_lt hlt hge
  · exact (hashWord_ne_of_lt hgt hle).symm

theorem hashFloat_eq_iff {i : Int64} {f : Float} (h : (Decimal.ofInt64 i == f) = true) :
    hashFloat f = hashWord i.toUInt64 ↔ Decimal.IsExact i := by
  obtain ⟨z, hz, ⟨hlow, hhigh⟩, ⟨hle, hge⟩, -⟩ := Decimal.ofInt64_cases i
  have hf : Decimal.integer? f = some z := by rw [← Decimal.integer?_congr h, hz]
  unfold hashFloat Decimal.IsExact
  rw [Decimal.int64?_of_integer? hf, hz, Option.some.injEq]
  by_cases htop : z < 2 ^ 63
  · rw [if_pos ⟨hlow, htop⟩]
    have hvalue : (Int64.ofInt z).toInt = z := Int64.toInt_ofInt_of_le (by omega) (by omega)
    constructor
    · intro heq
      by_contra hne
      refine hashWord_ne_of_near (i := Int64.ofInt z) (j := i) ?_ ?_ ?_ heq
      · rintro rfl
        exact hne hvalue.symm
      · rwa [hvalue]
      · rwa [hvalue]
    · rintro rfl
      simp only [Int64.ofInt_toInt]
  · -- The double does not fit, so it is hashed by its bits.
    obtain rfl : z = 2 ^ 63 := by omega
    have hbits : f.toBits = 0x43e0000000000000 := by
      rcases Decimal.eq_or_zeros_of_beq h with heq | ⟨s, t, hs, -⟩
      · rw [← heq, Decimal.toBits_ofInt64 hz]
      · rw [hs, Decimal.integer?_signedZero] at hz
        cases hz
    have hhash : (hashWord 0x43e0000000000000).toNat = 0xbfe00000 := by decide
    have hi := Int64.toInt_lt i
    rw [if_neg (by omega), hbits]
    constructor
    · intro heq
      have heq' := congrArg (fun w => (w.toNat : Int)) heq
      simp only [toNat_hashWord_toUInt64, hhash] at heq'
      omega
    · omega

theorem hashFloat_congr {f g : Float} (h : (f == g) = true) : hashFloat f = hashFloat g := by
  rcases Decimal.eq_or_zeros_of_beq h with rfl | ⟨s, t, rfl, rfl⟩
  · rfl
  · unfold hashFloat
    rw [Decimal.int64?_of_integer? (Decimal.integer?_signedZero s),
      Decimal.int64?_of_integer? (Decimal.integer?_signedZero t)]
    rfl

/-- An integer of one datum and a float of the other are at the same place, in nested tuples. -/
inductive Meets (i : Int64) (f : Float) : Datum → Datum → Prop
  | left : Meets i f (.int i) (.float f)
  | right : Meets i f (.float f) (.int i)
  | tuple {xs ys : List Datum} {x y : Datum} (hmem : (x, y) ∈ xs.zip ys) (h : Meets i f x y) :
      Meets i f (.tuple xs) (.tuple ys)

theorem Meets.eq_of_int {i j : Int64} {f g : Float} (h : Meets i f (.int j) (.float g)) : i = j := by
  cases h
  rfl

theorem hashAtom_eq_of_equal {a b : Atom} (h : a.equal b = true)
    (hexact : ∀ i f, Meets i f (.atom a) (.atom b) → Decimal.IsExact i) : hashAtom a = hashAtom b := by
  unfold Atom.equal at h
  split at h
  · rfl
  · rw [eq_of_beq h]
  · rw [eq_of_beq h]
  · exact ((hashFloat_eq_iff h).mpr (hexact _ _ .left)).symm
  · rw [BEq.comm] at h
    exact (hashFloat_eq_iff h).mpr (hexact _ _ .right)
  · exact hashFloat_congr h
  · rw [eq_of_beq h]
  · rw [eq_of_beq h]
  · cases h

theorem hashAll_eq_of_forall₂ {xs ys : List Datum} (h : List.Forall₂ (fun x y => x.hash = y.hash) xs ys)
    (seed : UInt32) : hashAll seed xs = hashAll seed ys := by
  induction h generalizing seed with
  | nil => rfl
  | cons hxy _ ih => rw [hashAll, hashAll, hxy, ih]

theorem hash_eq_of_equal {x y : Datum} (hx : x.hashable = true) (h : x.equal y = true)
    (hexact : ∀ i f, Meets i f x y → Decimal.IsExact i) : x.hash = y.hash := by
  induction sound_of_hashable hx generalizing y with
  | atom a =>
    cases equal_iff.mp h with
    | atom hatom => exact hashAtom_eq_of_equal hatom hexact
  | @tuple xs _ ih =>
    rw [hashable, allHashable_iff] at hx
    cases equal_iff.mp h with
    | tuple hparts =>
      obtain ⟨hlength, hzip⟩ := List.forall₂_iff_zip.mp hparts
      refine hashAll_eq_of_forall₂ (List.forall₂_iff_zip.mpr ⟨hlength, fun {x y} hmem => ?_⟩) _
      have hx' := (List.of_mem_zip hmem).1
      exact ih x hx' (hx x hx') (hzip hmem)
        fun i f hxy => hexact i f (.tuple hmem hxy)
  | list | dict | set => cases hx
  | builtin name =>
    cases equal_iff.mp h with
    | builtin => rfl
  | closure id name pattern body =>
    cases equal_iff.mp h with
    | closure => rfl

/-- Equal keys have one hash if every integer that meets a float in them is a double. For an integer
and a float alone this is the exact condition, and the integers up to `2^53` meet it. -/
theorem equal_keys_hash_iff_exact {x y : Datum} (hx : x.hashable = true) (h : x.equal y = true) :
    ((∀ i f, Meets i f x y → Decimal.IsExact i) → x.hash = y.hash) ∧
    (∀ a b i f, x = .atom a → y = .atom b → Meets i f x y →
      (x.hash = y.hash ↔ Decimal.IsExact i)) ∧
    ∀ i : Int64, i.toInt.natAbs ≤ 2 ^ 53 → Decimal.IsExact i := by
  refine ⟨hash_eq_of_equal hx h, ?_, fun i => Decimal.isExact_of_small⟩
  rintro a b i f rfl rfl hmeets
  cases equal_iff.mp h with
  | atom hatom =>
    cases hmeets with
    | left => exact eq_comm.trans (hashFloat_eq_iff hatom)
    | right =>
      have h' : (Decimal.ofInt64 i == f) = true := by
        rw [BEq.comm]
        exact hatom
      exact hashFloat_eq_iff h'

/-- Two nested keys, the numbers of one integers and of the other floats, and an integer that is not a
double. -/
theorem equal_keys_hash_iff_exact_nested :
    (Datum.tuple [.int 9007199254740992, .tuple [.bool true, .int 2]]).hash =
      (Datum.tuple [.float 9007199254740992, .tuple [.bool true, .float 2]]).hash ∧
    (Datum.int 9007199254740993).hash ≠ (Datum.float 9007199254740992).hash := by
  constructor
  · refine (equal_keys_hash_iff_exact rfl (by decide +kernel)).1 fun i f h => ?_
    cases h with
    | tuple hmem h =>
      rcases List.mem_cons.mp hmem with heq | hmem
      · obtain ⟨rfl, rfl⟩ := Prod.mk.inj heq
        rw [h.eq_of_int]
        decide +kernel
      obtain ⟨rfl, rfl⟩ := Prod.mk.inj (List.mem_singleton.mp hmem)
      cases h with
      | tuple hmem h =>
        rcases List.mem_cons.mp hmem with heq | hmem
        · obtain ⟨rfl, rfl⟩ := Prod.mk.inj heq
          cases h
        · obtain ⟨rfl, rfl⟩ := Prod.mk.inj (List.mem_singleton.mp hmem)
          rw [h.eq_of_int]
          decide +kernel
  · have hiff := (equal_keys_hash_iff_exact (x := .int 9007199254740993) (y := .float 9007199254740992)
      rfl (by decide +kernel)).2.1 _ _ _ _ rfl rfl .left
    rw [Ne, hiff]
    decide +kernel

end Datum

end EventTally
