import EventTally.Decimal.Integer
import EventTally.Proofs.Decimal.Numeral

/-! # Integers among the doubles

Two doubles compare equal if they are the same number, so only the two zeros are equal without being
the same double. An integer up to `2^53` is a double; a larger one of 64 bits is at most 1024 away
from the double nearest to it.
-/

namespace EventTally.Decimal

open Float.Model UnpackedFloat

theorem unpack_signedZero (s : Sign) : (signedZero s).toModel.unpack = .zero s := by
  cases s <;> rfl

theorem eq_or_zeros_of_beq {f g : Float} (h : (f == g) = true) :
    f = g ∨ ∃ s t, f = signedZero s ∧ g = signedZero t := by
  obtain ⟨-, -, heq | ⟨rfl, rfl⟩ | ⟨rfl, rfl⟩⟩ := Float.beq_iff_ne_nan_and_eq.mp h
  · exact Or.inl heq
  · exact Or.inr ⟨.positive, .negative, rfl, rfl⟩
  · exact Or.inr ⟨.negative, .positive, rfl, rfl⟩

theorem integer?_signedZero (s : Sign) : integer? (signedZero s) = some 0 := by
  cases s <;> decide +kernel

theorem integer?_congr {f g : Float} (h : (f == g) = true) : integer? f = integer? g := by
  rcases eq_or_zeros_of_beq h with rfl | ⟨s, t, rfl, rfl⟩
  · rfl
  · rw [integer?_signedZero, integer?_signedZero]

theorem int64?_of_integer? {f : Float} {z : Int} (h : integer? f = some z) :
    int64? f = if -2 ^ 63 ≤ z ∧ z < 2 ^ 63 then some (Int64.ofInt z) else none := by
  have hrange : (int64Min ≤ z && z ≤ int64Max) = decide (-2 ^ 63 ≤ z ∧ z < 2 ^ 63) := by
    rw [Bool.decide_and]
    congr 1
    rw [decide_eq_decide]
    unfold int64Max
    omega
  unfold int64?
  simp only [h, hrange, decide_eq_true_eq]

theorem fields_double (s : Sign) {m : Nat} {e : Int} (hd : IsDouble m e) :
    (if signBit (double s hd).toBits then Sign.negative else .positive) = s ∧
      (Binary.ofBits (double s hd).toBits).mantissa = m ∧
      (Binary.ofBits (double s hd).toBits).exponent = e := by
  have hfinite : (double s hd).isFinite = true := by
    change (Float.Model.unpack (.pack _)).isFinite = true
    rw [unpack_pack hd]
    rfl
  have hunpack : (double s hd).toModel.unpack = .finite s m e hd.pos := unpack_pack hd s
  rcases finite_cases hfinite with ⟨-, hzero⟩ | ⟨hd', hdouble, -⟩
  · rw [hzero, unpack_signedZero] at hunpack
    cases hunpack
  · have hunpack' := unpack_pack hd' (if signBit (double s hd).toBits then .negative else .positive)
    change (double _ hd').toModel.unpack = _ at hunpack'
    rw [← hdouble, hunpack] at hunpack'
    injection hunpack' with hs hm he
    exact ⟨hs.symm, hm.symm, he.symm⟩

theorem integer?_double (s : Sign) {m : Nat} {e : Int} (hd : IsDouble m e) {z : Nat}
    (hz : (m : ℚ) * 2 ^ e = z) : integer? (double s hd) = some (s.apply z) := by
  obtain ⟨hs, hm, he⟩ := fields_double s hd
  have hfinite : (double s hd).isFinite = true := by
    change (Float.Model.unpack (.pack _)).isFinite = true
    rw [unpack_pack hd]
    rfl
  have hnat : m * 2 ^ e.toNat = z * 2 ^ (-e).toNat := by
    have hq : (m : ℚ) * 2 ^ e.toNat = z * 2 ^ (-e).toNat := by
      rw [← hz, ← zpow_natCast, ← zpow_natCast, mul_assoc, ← zpow_add₀ (by norm_num)]
      congr 2
      omega
    exact_mod_cast hq
  have hunit : 0 < 2 ^ (-e).toNat := Nat.two_pow_pos _
  unfold integer?
  simp only [hfinite, hm, he, Nat.pow_eq]
  rw [hnat, Nat.mul_mod_left, Nat.mul_div_cancel _ hunit]
  cases s with
  | negative =>
    have hsign : signBit (double .negative hd).toBits = true := by
      by_contra h
      rw [if_neg h] at hs
      cases hs
    simp [hsign, Sign.apply]
  | positive =>
    have hsign : signBit (double .positive hd).toBits = false := by
      by_contra h
      rw [if_pos (by simpa using h)] at hs
      cases hs
    simp [hsign, Sign.apply]

-- A number of at least 54 bits is cut after the first 53: it is `q * (2 * h) + r`, with the unit
-- `2 * h` a power of two. What is cut off decides whether the mantissa `q` goes up.

section Cut

variable {q r h : Nat} {e : Int}

theorem roundsTo_down (hunit : (2 : ℚ) ^ e = 2 * h) (hpos : 0 < h)
    (hdown : r < h ∨ r = h ∧ q % 2 = 0) : RoundsTo ((q * (2 * h) + r : ℕ) : ℚ) q e := by
  have hpos' : (0 : ℚ) < h := by exact_mod_cast hpos
  have hreach := mul_pos (reachBelow_pos q e) hpos'
  have hr0 : (0 : ℚ) ≤ r := Nat.cast_nonneg r
  have hle : (r : ℚ) ≤ h := by exact_mod_cast (show r ≤ h by omega)
  unfold RoundsTo
  rw [hunit, sub_mul]
  push_cast
  split
  · constructor <;> linarith
  · have hstrict : (r : ℚ) < h := by exact_mod_cast (show r < h by omega)
    constructor <;> linarith

theorem roundsTo_up (hunit : (2 : ℚ) ^ e = 2 * h) (hreach : reachBelow (q + 1) e = 1 / 2)
    (hrest : r < 2 * h) (hup : h < r ∨ r = h ∧ q % 2 = 1) :
    RoundsTo ((q * (2 * h) + r : ℕ) : ℚ) (q + 1) e := by
  have hge : (h : ℚ) ≤ r := by exact_mod_cast (show h ≤ r by omega)
  have hlt : (r : ℚ) < 2 * h := by exact_mod_cast hrest
  unfold RoundsTo
  rw [hunit, hreach]
  push_cast
  split
  · constructor <;> linarith
  · have hstrict : (h : ℚ) < r := by exact_mod_cast (show h < r by omega)
    constructor <;> linarith

theorem roundsTo_carry (hunit : (2 : ℚ) ^ e = 2 * h) (hlow : -1074 < e + 1) (hcarry : q + 1 = 2 ^ 53)
    (hrest : r < 2 * h) (hup : h ≤ r) : RoundsTo ((q * (2 * h) + r : ℕ) : ℚ) (2 ^ 52) (e + 1) := by
  have hge : (h : ℚ) ≤ r := by exact_mod_cast hup
  have hlt : (r : ℚ) < 2 * h := by exact_mod_cast hrest
  have hq : (q : ℚ) = 2 ^ 53 - 1 := by
    have : (q : ℚ) + 1 = 2 ^ 53 := by exact_mod_cast hcarry
    linarith
  have hreach : reachBelow (2 ^ 52) (e + 1) = 1 / 4 := if_pos ⟨rfl, hlow⟩
  unfold RoundsTo
  rw [if_pos (by norm_num), hreach, zpow_add_one₀ (by norm_num), hunit]
  push_cast
  rw [hq]
  constructor <;> linarith

end Cut

theorem isDouble_normal {m k : Nat} (hlow : 2 ^ 52 ≤ m) (hhigh : m < 2 ^ 53) (hk : k ≤ 971) :
    IsDouble m k :=
  ⟨by omega, hhigh, by omega, by omega, Or.inl hlow⟩

theorem exists_roundsTo {n : Nat} (hlog : 53 ≤ n.log2) (hsmall : n < 2 ^ 64) :
    ∃ m k : Nat, IsDouble m k ∧ RoundsTo n m k ∧ m * 2 ^ k ≤ n + 2 ^ (n.log2 - 53) ∧
      n ≤ m * 2 ^ k + 2 ^ (n.log2 - 53) := by
  have hn : n ≠ 0 := by
    rintro rfl
    simp at hlog
  have htop : n.log2 < 64 := (Nat.log2_lt hn).mpr hsmall
  obtain ⟨j, hj⟩ : ∃ j, n.log2 = j + 53 := ⟨n.log2 - 53, by omega⟩
  have hlow := Nat.log2_self_le hn
  have hhigh := Nat.lt_log2_self (n := n)
  rw [hj] at hlow hhigh htop ⊢
  rw [Nat.add_sub_cancel]
  obtain ⟨h, hh⟩ : ∃ h, h = 2 ^ j := ⟨_, rfl⟩
  have hpos : 0 < h := hh ▸ Nat.two_pow_pos j
  have hunit : 2 ^ (j + 1) = 2 * h := by rw [Nat.pow_succ, hh, Nat.mul_comm]
  have hunit' : (2 : ℚ) ^ ((j + 1 : ℕ) : ℤ) = 2 * h := by
    rw [zpow_natCast]
    exact_mod_cast hunit
  obtain ⟨q, r, hsplit, hrest, hqlow, hqhigh⟩ :
      ∃ q r, n = q * (2 * h) + r ∧ r < 2 * h ∧ 2 ^ 52 ≤ q ∧ q < 2 ^ 53 := by
    refine ⟨n / (2 * h), n % (2 * h), (Nat.div_add_mod' n (2 * h)).symm, Nat.mod_lt _ (by omega), ?_, ?_⟩
    · rw [Nat.le_div_iff_mul_le (by omega), ← hunit, ← Nat.pow_add,
        show 52 + (j + 1) = j + 53 by omega]
      exact hlow
    · rw [Nat.div_lt_iff_lt_mul (by omega), ← hunit, ← Nat.pow_add,
        show 53 + (j + 1) = j + 53 + 1 by omega]
      exact hhigh
  have hnext : (q + 1) * (2 * h) = q * (2 * h) + 2 * h := Nat.succ_mul q (2 * h)
  rw [← hh, hsplit]
  by_cases hup : h < r ∨ r = h ∧ q % 2 = 1
  · by_cases hcarry : q + 1 = 2 ^ 53
    · have hvalue : 2 ^ 52 * 2 ^ (j + 1 + 1) = (q + 1) * (2 * h) := by
        rw [hcarry, Nat.pow_succ 2 (j + 1), hunit]
        ring
      refine ⟨2 ^ 52, j + 1 + 1, isDouble_normal (Nat.le_refl _) (by norm_num) (by omega), ?_, ?_, ?_⟩
      · rw [Nat.cast_succ (j + 1)]
        exact roundsTo_carry hunit' (by omega) hcarry hrest (by omega)
      · rw [hvalue]
        omega
      · rw [hvalue]
        omega
    · have hreach : reachBelow (q + 1) ((j + 1 : ℕ) : ℤ) = 1 / 2 := if_neg (by omega)
      refine ⟨q + 1, j + 1, isDouble_normal (by omega) (by omega) (by omega), ?_, ?_, ?_⟩
      · exact roundsTo_up hunit' hreach hrest hup
      · rw [hunit]
        omega
      · rw [hunit]
        omega
  · refine ⟨q, j + 1, isDouble_normal hqlow hqhigh (by omega), ?_, ?_, ?_⟩
    · exact roundsTo_down hunit' hpos (by omega)
    · rw [hunit]
      omega
    · rw [hunit]
      omega

theorem toFloat_cases {n : Nat} (hpos : 0 < n) (hn : n < 2 ^ 64) :
    ∃ m e z, ∃ hd : IsDouble m e, n.toUInt64.toFloat = double .positive hd ∧ (m : ℚ) * 2 ^ e = (z : ℕ) ∧
      z ≤ n + 2 ^ (n.log2 - 53) ∧ n ≤ z + 2 ^ (n.log2 - 53) ∧ (n < 2 ^ 53 → z = n) := by
  by_cases hsmall : n < 2 ^ 53
  · have hlog : n.log2 < 53 := (Nat.log2_lt hpos.ne').mpr hsmall
    refine ⟨_, _, n, isDouble_ofNat hpos hsmall, toFloat_eq hpos hsmall, ofNat_value n (by omega), ?_⟩
    simp
  · have hlog : 53 ≤ n.log2 := (Nat.le_log2 hpos.ne').mpr (by omega)
    obtain ⟨m, k, hd, hround, hle, hge⟩ := exists_roundsTo hlog hn
    refine ⟨m, k, m * 2 ^ k, hd, ?_, by push_cast; rw [zpow_natCast], hle, hge, fun h => absurd h hsmall⟩
    have hword : n.toUInt64.toNat = n := by
      rw [Nat.toUInt64, UInt64.toNat_ofNat']
      omega
    have htarget : Format.binary64.targetExponent (totalExponent n 0) = (n.log2 : Int) - 52 := by
      rw [targetExponent_eq, totalExponent]
      omega
    have hrounded : UnpackedFloat.round .binary64 .positive n 0 = .finite .positive m k hd.pos := by
      have hshift : (0 - ((n.log2 : Int) - 52)).toNat = 0 := by omega
      unfold UnpackedFloat.round decreaseExponent
      simp only [htarget, hshift, Nat.shiftLeft_zero]
      refine roundWithAccuracy_eq hd ?_ _ (cutsTo_exact _ _) ?_
      · simpa using hround
      · change (0 : Int) ≤ Format.binary64.targetExponent (totalExponent n 0)
        rw [htarget]
        omega
    change Float.ofModel (.pack (UnpackedFloat.normalize .binary64 (n.toUInt64.toNat : Int) 0 .positive)) = _
    rw [hword]
    unfold UnpackedFloat.normalize
    rw [show compare (n : Int) 0 = .gt from Int.compare_eq_gt.mpr (by omega)]
    simp only [Int.toNat_natCast, hrounded]
    rfl

theorem double_at_top {m : Nat} {e : Int} (hd : IsDouble m e) {z : Nat} (hvalue : (m : ℚ) * 2 ^ e = z)
    (hlow : 2 ^ 63 ≤ z) (hhigh : z < 2 ^ 63 + 2048) : m = 2 ^ 52 ∧ e = 11 := by
  have hsmall : (m : ℚ) < 2 ^ 53 := by exact_mod_cast hd.small
  have hlow' : (2 : ℚ) ^ 63 ≤ z := by exact_mod_cast hlow
  have he : 11 ≤ e := by
    by_contra h
    have hunit : (2 : ℚ) ^ e ≤ 2 ^ (10 : Int) := zpow_le_zpow_right₀ (by norm_num) (by omega)
    have hproduct : (m : ℚ) * 2 ^ e < 2 ^ 53 * 2 ^ (10 : Int) :=
      mul_lt_mul hsmall hunit (by positivity) (by positivity)
    norm_num at hproduct
    linarith
  obtain ⟨k, rfl⟩ : ∃ k : Nat, e = k := ⟨e.toNat, by omega⟩
  have hnat : m * 2 ^ k = z := by
    rw [zpow_natCast] at hvalue
    exact_mod_cast hvalue
  have hm : 2 ^ 52 ≤ m := hd.normal.resolve_right (by omega)
  have hk : k < 12 := by
    by_contra h
    have hunit : 2 ^ 12 ≤ 2 ^ k := Nat.pow_le_pow_right (by norm_num) (by omega)
    have hproduct := Nat.mul_le_mul hm hunit
    omega
  obtain rfl : k = 11 := by omega
  exact ⟨by omega, rfl⟩

theorem le_top {m : Nat} {e : Int} (hd : IsDouble m e) {z : Nat} (hvalue : (m : ℚ) * 2 ^ e = z)
    (hhigh : z < 2 ^ 63 + 2048) : z ≤ 2 ^ 63 := by
  by_contra h
  obtain ⟨rfl, rfl⟩ := double_at_top hd hvalue (by omega) hhigh
  have htop : ((2 ^ 52 : ℕ) : ℚ) * 2 ^ (11 : Int) = (2 ^ 63 : ℕ) := by norm_num
  have : z = 2 ^ 63 := by exact_mod_cast hvalue.symm.trans htop
  omega

theorem ofInt64_eq_signedZero {i : Int64} (hi : i.toInt = 0) : ofInt64 i = signedZero .positive := by
  unfold ofInt64
  rw [hi]
  rfl

/-- An integer of 64 bits goes to a double that is an integer at most 1024 away, and below `2^53` the
same. -/
theorem ofInt64_cases (i : Int64) :
    ∃ z : Int, integer? (ofInt64 i) = some z ∧ (-2 ^ 63 ≤ z ∧ z ≤ 2 ^ 63) ∧
      (z ≤ i.toInt + 1024 ∧ i.toInt ≤ z + 1024) ∧ (i.toInt.natAbs < 2 ^ 53 → z = i.toInt) := by
  have hlow := Int64.le_toInt i
  have hhigh := Int64.toInt_lt i
  by_cases hzero : i.toInt = 0
  · refine ⟨0, ?_, by omega, by omega, fun _ => hzero.symm⟩
    rw [ofInt64_eq_signedZero hzero, integer?_signedZero]
  have hpos : 0 < i.toInt.natAbs := by omega
  obtain ⟨m, e, z, hd, hfloat, hvalue, hle, hge, hexact⟩ := toFloat_cases hpos (by omega)
  have hlog : i.toInt.natAbs.log2 < 64 := (Nat.log2_lt hpos.ne').mpr (by omega)
  have hunit : 2 ^ (i.toInt.natAbs.log2 - 53) ≤ 2 ^ 10 :=
    Nat.pow_le_pow_right (by norm_num) (by omega)
  have htop : z ≤ 2 ^ 63 := le_top hd hvalue (by omega)
  unfold ofInt64
  rw [hfloat]
  by_cases hneg : i.toInt < 0
  · refine ⟨-z, ?_, by omega, by omega, fun h => ?_⟩
    · rw [if_pos hneg, neg_double, integer?_double _ _ hvalue]
      rfl
    · have := hexact h
      omega
  · refine ⟨z, ?_, by omega, by omega, fun h => ?_⟩
    · rw [if_neg hneg, integer?_double _ _ hvalue]
      rfl
    · have := hexact h
      omega

theorem toBits_ofInt64 {i : Int64} (h : integer? (ofInt64 i) = some (2 ^ 63)) :
    (ofInt64 i).toBits = 0x43e0000000000000 := by
  obtain ⟨z, hz, -, hnear, -⟩ := ofInt64_cases i
  obtain rfl : z = 2 ^ 63 := Option.some.inj (hz.symm.trans h)
  have hhigh := Int64.toInt_lt i
  have hpos : 0 < i.toInt.natAbs := by omega
  obtain ⟨m, e, y, hd, hfloat, hvalue, -⟩ := toFloat_cases hpos (by omega)
  have hdouble : ofInt64 i = double .positive hd := by
    unfold ofInt64
    rw [if_neg (by omega), hfloat]
  rw [hdouble, integer?_double _ _ hvalue] at h
  have hy : (y : Int) = 2 ^ 63 := Option.some.inj h
  obtain ⟨rfl, rfl⟩ := double_at_top hd hvalue (by omega) (by omega)
  have hbits : (double .positive (isDouble_normal (m := 2 ^ 52) (k := 11) (by norm_num) (by norm_num)
    (by norm_num))).toBits = 0x43e0000000000000 := by decide +kernel
  rw [hdouble]
  exact hbits

/-- An integer is a double: nothing is lost when it is converted. -/
def IsExact (i : Int64) : Prop := integer? (ofInt64 i) = some i.toInt

instance decidableIsExact (i : Int64) : Decidable (IsExact i) := inferInstanceAs (Decidable (_ = _))

theorem isExact_of_small {i : Int64} (h : i.toInt.natAbs ≤ 2 ^ 53) : IsExact i := by
  by_cases hlt : i.toInt.natAbs < 2 ^ 53
  · obtain ⟨z, hz, -, -, hexact⟩ := ofInt64_cases i
    rw [IsExact, hz, hexact hlt]
  · rcases Int.natAbs_eq_iff.mp (show i.toInt.natAbs = 2 ^ 53 by omega) with hi | hi
    · obtain rfl : i = 9007199254740992 := Int64.toInt_inj.mp hi
      decide +kernel
    · obtain rfl : i = -9007199254740992 := Int64.toInt_inj.mp hi
      decide +kernel

end EventTally.Decimal
