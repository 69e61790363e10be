import EventTally.Decimal.Shortest
import EventTally.Proofs.Decimal.Rounding

/-! # Doubles and their bits

A finite double is a sign with zero, or a sign with a mantissa and an exponent. The fields of its
bits give these back, and packing them gives the bits back.
-/

namespace EventTally.Decimal

open Float.Model UnpackedFloat

theorem toNat_packComponents (s : Sign) (x : BitVec 11) (y : BitVec 52) :
    (packComponents .binary64 s x y).toNat =
      s.toBitVec.toNat * 2 ^ 63 + x.toNat * 2 ^ 52 + y.toNat := by
  have hx : x.toNat < 2 ^ 11 := x.isLt
  have hy : y.toNat < 2 ^ 52 := y.isLt
  unfold packComponents
  rw [BitVec.toNat_append, BitVec.toNat_append, ← Nat.shiftLeft_add_eq_or_of_lt hx,
    ← Nat.shiftLeft_add_eq_or_of_lt hy]
  simp only [Nat.shiftLeft_eq]
  omega

theorem exponentBias_eq : Format.binary64.exponentBias = 1023 := rfl

theorem biasedExponent_eq (e : Int) : (e + (1023 : ℕ) + (52 : ℕ)).toNat = (e + 1075).toNat := by
  omega

theorem toNat_one_append (y : BitVec 52) : (1#1 ++ y).toNat = 2 ^ 52 + y.toNat := by
  rw [BitVec.toNat_append, ← Nat.shiftLeft_add_eq_or_of_lt y.isLt]
  rfl

theorem pack_normal {m : Nat} {e : Int} (hd : IsDouble m e) (hm : 2 ^ 52 ≤ m) (s : Sign) :
    UnpackedFloat.pack .binary64 (.finite s m e hd.pos) =
      packComponents .binary64 s (.ofNat 11 (e + 1075).toNat) (.ofNat 52 m) := by
  have hlow : m.log2 < 53 := (Nat.log2_lt hd.pos.ne').mpr hd.small
  have hhigh : 52 ≤ m.log2 := (Nat.le_log2 hd.pos.ne').mpr hm
  have he := hd.high
  unfold UnpackedFloat.pack
  simp only [exponentBias_eq, biasedExponent_eq]
  rw [if_neg (by omega), if_pos (by change _ = 53; omega)]

theorem pack_subnormal {m : Nat} (hd : IsDouble m (-1074)) (hm : m < 2 ^ 52) (s : Sign) :
    UnpackedFloat.pack .binary64 (.finite s m (-1074) hd.pos) =
      packComponents .binary64 s 0#11 (.ofNat 52 m) := by
  have hlow : m.log2 < 52 := (Nat.log2_lt hd.pos.ne').mpr hm
  unfold UnpackedFloat.pack
  simp only [exponentBias_eq, biasedExponent_eq]
  rw [if_neg (by decide), if_neg (by change _ ≠ 53; omega)]

theorem unpack_pack {m : Nat} {e : Int} (hd : IsDouble m e) (s : Sign) :
    (Float.Model.pack (.finite s m e hd.pos)).unpack = .finite s m e hd.pos := by
  have hlow := hd.low
  have hhigh := hd.high
  unfold Float.Model.unpack Float.Model.pack
  change UnpackedFloat.unpack .binary64 (UnpackedFloat.pack .binary64 _) = _
  by_cases hm : 2 ^ 52 ≤ m
  · have hexp : (BitVec.ofNat 11 (e + 1075).toNat).toNat = (e + 1075).toNat := by
      rw [BitVec.toNat_ofNat]
      omega
    have hman : (BitVec.ofNat 52 m).toNat = m - 2 ^ 52 := by
      have := hd.small
      rw [BitVec.toNat_ofNat]
      omega
    rw [pack_normal hd hm]
    unfold UnpackedFloat.unpack
    simp only [unpackExponent_packComponents, unpackMantissa_packComponents,
      unpackSign_packComponents, Sign.ofBitVec_toBitVec, toNat_one_append, hexp, hman, exponentBias_eq]
    rw [if_neg, if_neg]
    · have hm' : 2 ^ 52 + (m - 2 ^ 52) = m := by omega
      have he' : ((e + 1075).toNat : Int) - ((1023 : ℕ) + (52 : ℕ)) = e := by omega
      simp only [hm', he']
    · intro h
      have := congrArg BitVec.toNat h
      rw [hexp] at this
      change _ = 0 at this
      omega
    · intro h
      have := congrArg BitVec.toNat h
      rw [hexp] at this
      change _ = 2047 at this
      omega
  · obtain rfl : e = -1074 := hd.normal.resolve_left hm
    have hman : (BitVec.ofNat 52 m).toNat = m := by
      rw [BitVec.toNat_ofNat]
      omega
    have hne : BitVec.ofNat 52 m ≠ 0#52 := by
      intro h
      have := congrArg BitVec.toNat h
      rw [hman] at this
      exact hd.pos.ne' this
    rw [pack_subnormal hd (by omega)]
    unfold UnpackedFloat.unpack
    simp only [unpackExponent_packComponents, unpackMantissa_packComponents,
      unpackSign_packComponents, Sign.ofBitVec_toBitVec]
    rw [if_neg (by decide), if_pos trivial, dif_neg hne]
    simp only [hman, exponentBias_eq]
    rfl

def signedZero (s : Sign) : Float := .ofModel (.pack (.zero s))

def double (s : Sign) {m : Nat} {e : Int} (hd : IsDouble m e) : Float :=
  .ofModel (.pack (.finite s m e hd.pos))

theorem neg_signedZero : -signedZero .positive = signedZero .negative := rfl

theorem neg_double {m : Nat} {e : Int} (hd : IsDouble m e) :
    -double .positive hd = double .negative hd := by
  change Float.ofModel (Float.Model.pack (Float.Model.unpack (.pack _)).neg) = _
  rw [unpack_pack hd]
  rfl

theorem ofModel_eq_of_bits {f : Float} {u : UnpackedFloat}
    (h : f.toBits.toBitVec = UnpackedFloat.pack .binary64 u) : f = .ofModel (.pack u) := by
  obtain ⟨⟨bits, hvalid⟩⟩ := f
  have hbits : bits = .ofBitVec (UnpackedFloat.pack .binary64 u) := UInt64.toBitVec_inj.mp h
  subst hbits
  rfl

theorem signBit_eq (b : UInt64) : signBit b = decide (b.toNat / 2 ^ 63 = 1) := by
  unfold signBit
  congr 1
  rw [← UInt64.toNat_inj, UInt64.toNat_shiftRight, Nat.shiftRight_eq_div_pow]
  rfl

theorem exponentField_eq (b : UInt64) : exponentField b = b.toNat / 2 ^ 52 % 2 ^ 11 := by
  unfold exponentField
  rw [UInt64.toNat_and, UInt64.toNat_shiftRight, Nat.shiftRight_eq_div_pow]
  exact Nat.and_two_pow_sub_one_eq_mod _ 11

theorem mantissaField_eq (b : UInt64) : mantissaField b = b.toNat % 2 ^ 52 := by
  unfold mantissaField
  rw [UInt64.toNat_and]
  exact Nat.and_two_pow_sub_one_eq_mod _ 52

theorem bits_eq (b : UInt64) :
    b.toBitVec = packComponents .binary64 (if signBit b then .negative else .positive)
      (.ofNat 11 (exponentField b)) (.ofNat 52 (mantissaField b)) := by
  have hb := b.toNat_lt
  apply BitVec.eq_of_toNat_eq
  rw [toNat_packComponents, BitVec.toNat_ofNat, BitVec.toNat_ofNat, signBit_eq, exponentField_eq,
    mantissaField_eq]
  change b.toNat = _
  by_cases h : b.toNat / 2 ^ 63 = 1
  · rw [if_pos (decide_eq_true h)]
    change _ = 1 * _ + _ + _
    omega
  · rw [if_neg (by simpa using h)]
    change _ = 0 * _ + _ + _
    omega

theorem exponentField_lt_of_isFinite {f : Float} (hf : f.isFinite = true) :
    exponentField f.toBits < 2047 := by
  have hlt : exponentField f.toBits < 2 ^ 11 := by
    rw [exponentField_eq]
    omega
  by_contra hge
  have hx : exponentField f.toBits = 2047 := by omega
  change (UnpackedFloat.unpack .binary64 f.toBits.toBitVec).isFinite = true at hf
  rw [bits_eq, hx] at hf
  unfold UnpackedFloat.unpack at hf
  simp only [unpackExponent_packComponents] at hf
  rw [if_pos (by decide), apply_ite UnpackedFloat.isFinite] at hf
  simp [UnpackedFloat.isFinite] at hf

theorem finite_cases {f : Float} (hf : f.isFinite = true) :
    let s : Sign := if signBit f.toBits then .negative else .positive
    let b := Binary.ofBits f.toBits
    (b.mantissa = 0 ∧ f = signedZero s) ∨
      ∃ hd : IsDouble b.mantissa b.exponent, f = double s hd ∧
        b.atPower = decide (b.mantissa = 2 ^ 52 ∧ -1074 < b.exponent) := by
  intro s b
  have hx := exponentField_lt_of_isFinite hf
  have hy : mantissaField f.toBits < 2 ^ 52 := by
    rw [mantissaField_eq]
    omega
  have hbits := bits_eq f.toBits
  by_cases hzero : exponentField f.toBits = 0
  · have hb : b = ⟨mantissaField f.toBits, -1074, false⟩ := by
      simp only [b, Binary.ofBits, if_pos hzero]
    rw [hb]
    rw [hzero] at hbits
    by_cases hm : mantissaField f.toBits = 0
    · rw [hm] at hbits
      exact Or.inl ⟨hm, ofModel_eq_of_bits hbits⟩
    · have hd : IsDouble (mantissaField f.toBits) (-1074) :=
        ⟨Nat.pos_of_ne_zero hm, by omega, le_rfl, by decide, Or.inr rfl⟩
      refine Or.inr ⟨hd, ofModel_eq_of_bits (hbits.trans (pack_subnormal hd hy s).symm), ?_⟩
      simp
  · have hb : b = ⟨2 ^ 52 + mantissaField f.toBits, (exponentField f.toBits : Int) - 1075,
        mantissaField f.toBits = 0 && 1 < exponentField f.toBits⟩ := by
      simp only [b, Binary.ofBits, if_neg hzero]
      rfl
    rw [hb]
    have hd : IsDouble (2 ^ 52 + mantissaField f.toBits) ((exponentField f.toBits : Int) - 1075) :=
      ⟨by omega, by omega, by omega, by omega, Or.inl (by omega)⟩
    refine Or.inr ⟨hd, ofModel_eq_of_bits (hbits.trans ?_), ?_⟩
    · rw [pack_normal hd (by omega)]
      congr 1
      · congr 1
        omega
      · apply BitVec.eq_of_toNat_eq
        rw [BitVec.toNat_ofNat, BitVec.toNat_ofNat]
        omega
    · rw [← Bool.decide_and]
      apply decide_eq_decide.mpr
      dsimp only
      omega

end EventTally.Decimal
