import EventTally.Decimal.Reading
import EventTally.Proofs.Decimal.Doubles

/-! # The double nearest to a decimal

`nearest_eq`: a decimal that lies among the rationals that round to a double is read as that
double, whichever way the reader takes: by exact powers of ten, or by long division.
-/

namespace EventTally.Decimal

open Float.Model UnpackedFloat

theorem RoundsTo.self {m : Nat} {e : Int} : RoundsTo (m * 2 ^ e) m e := by
  have hunit : (0 : ℚ) < 2 ^ e := zpow_pos (by norm_num) e
  have hlow : (m - reachBelow m e) * 2 ^ e < m * 2 ^ e :=
    mul_lt_mul_of_pos_right (by linarith [reachBelow_pos m e]) hunit
  have hhigh : (m : ℚ) * 2 ^ e < (m + 1 / 2) * 2 ^ e :=
    mul_lt_mul_of_pos_right (by linarith) hunit
  unfold RoundsTo
  split
  · exact ⟨hlow.le, hhigh.le⟩
  · exact ⟨hlow, hhigh⟩

theorem RoundsTo.lower {x : ℚ} {m : Nat} {e : Int} (hd : IsDouble m e) (hx : RoundsTo x m e) :
    (2 : ℚ) ^ (-1075 : Int) ≤ x := by
  have hm : (1 : ℚ) ≤ m := by exact_mod_cast hd.pos
  have hreach := reachBelow_le m e
  calc (2 : ℚ) ^ (-1075 : Int) = 1 / 2 * 2 ^ (-1074 : Int) := by
        rw [show (-1075 : Int) = -1074 - 1 from rfl, zpow_sub_one₀ (by norm_num)]
        ring
    _ ≤ 1 / 2 * 2 ^ e :=
        mul_le_mul_of_nonneg_left (zpow_le_zpow_right₀ (by norm_num) hd.low) (by norm_num)
    _ ≤ (m - reachBelow m e) * 2 ^ e :=
        mul_le_mul_of_nonneg_right (by linarith) (zpow_nonneg (by norm_num) e)
    _ ≤ x := hx.bounds.1

theorem RoundsTo.upper {x : ℚ} {m : Nat} {e : Int} (hd : IsDouble m e) (hx : RoundsTo x m e) :
    x < 2 ^ (1024 : Int) := by
  have hm : (m : ℚ) + 1 ≤ 2 ^ 53 := by exact_mod_cast hd.small
  calc x ≤ (m + 1 / 2) * 2 ^ e := hx.bounds.2
    _ < 2 ^ 53 * 2 ^ e := mul_lt_mul_of_pos_right (by linarith) (zpow_pos (by norm_num) e)
    _ ≤ 2 ^ 53 * 2 ^ (971 : Int) :=
        mul_le_mul_of_nonneg_left (zpow_le_zpow_right₀ (by norm_num) hd.high) (by norm_num)
    _ = 2 ^ (1024 : Int) := by
        rw [← zpow_natCast, ← zpow_add₀ (by norm_num)]
        rfl

theorem length_toDigits_bounds {n : Nat} (hn : n ≠ 0) :
    (10 : ℚ) ^ (((Nat.toDigits 10 n).length : Int) - 1) ≤ n ∧
      (n : ℚ) < 10 ^ ((Nat.toDigits 10 n).length : Int) := by
  have hpos : 0 < (Nat.toDigits 10 n).length := Nat.length_toDigits_pos
  generalize hk : (Nat.toDigits 10 n).length = k at hpos
  obtain ⟨j, rfl⟩ : ∃ j, k = j + 1 := ⟨k - 1, by omega⟩
  constructor
  · rw [show ((j + 1 : ℕ) : Int) - 1 = j by omega, zpow_natCast]
    rcases Nat.eq_zero_or_pos j with rfl | hj
    · simpa using Nat.one_le_iff_ne_zero.mpr hn
    · have := (Nat.length_toDigits_le_iff (b := 10) (n := n) (by decide) hj).not.mp (by omega)
      exact_mod_cast not_lt.mp this
  · rw [zpow_natCast]
    exact_mod_cast (Nat.length_toDigits_le_iff (by decide) hpos).mp hk.le

theorem ten_zpow_lt_lower : (10 : ℚ) ^ (-331 : Int) < 2 ^ (-1075 : Int) := by
  have h : 2 ^ 1075 < 10 ^ 331 := by decide +kernel
  rw [zpow_neg, zpow_neg]
  apply inv_strictAnti₀ (zpow_pos (by norm_num) _)
  exact_mod_cast h

theorem upper_lt_ten_zpow : (2 : ℚ) ^ (1024 : Int) < 10 ^ (310 : Int) := by
  have h : 2 ^ 1024 < 10 ^ 310 := by decide +kernel
  exact_mod_cast h

theorem RoundsTo.size_bounds {n : Nat} {k : Int} {m : Nat} {e : Int} (hd : IsDouble m e)
    (hx : RoundsTo (n * 10 ^ k) m e) (hn : n ≠ 0) :
    -330 ≤ ((Nat.toDigits 10 n).length : Int) + k ∧ (Nat.toDigits 10 n).length + k ≤ 310 := by
  obtain ⟨hlow, hhigh⟩ := length_toDigits_bounds hn
  have hten : (0 : ℚ) < 10 ^ k := zpow_pos (by norm_num) k
  constructor
  · have h : (10 : ℚ) ^ (-331 : Int) < 10 ^ (((Nat.toDigits 10 n).length : Int) + k) := by
      calc (10 : ℚ) ^ (-331 : Int) < 2 ^ (-1075 : Int) := ten_zpow_lt_lower
        _ ≤ n * 10 ^ k := hx.lower hd
        _ < 10 ^ ((Nat.toDigits 10 n).length : Int) * 10 ^ k := mul_lt_mul_of_pos_right hhigh hten
        _ = _ := by rw [← zpow_add₀ (by norm_num)]
    have := (zpow_lt_zpow_iff_right₀ (by norm_num)).mp h
    omega
  · have h : (10 : ℚ) ^ (((Nat.toDigits 10 n).length : Int) - 1 + k) < 10 ^ (310 : Int) := by
      calc (10 : ℚ) ^ (((Nat.toDigits 10 n).length : Int) - 1 + k)
          = 10 ^ (((Nat.toDigits 10 n).length : Int) - 1) * 10 ^ k := zpow_add₀ (by norm_num) _ _
        _ ≤ n * 10 ^ k := mul_le_mul_of_nonneg_right hlow hten.le
        _ < 2 ^ (1024 : Int) := hx.upper hd
        _ < 10 ^ (310 : Int) := upper_lt_ten_zpow
    have := (zpow_lt_zpow_iff_right₀ (by norm_num)).mp h
    omega

theorem isDouble_ofNat {n : Nat} (hpos : 0 < n) (hn : n < 2 ^ 53) :
    IsDouble (n <<< (52 - n.log2)) (n.log2 - 52) := by
  have hlog : n.log2 < 53 := (Nat.log2_lt hpos.ne').mpr hn
  have hl := Nat.log2_self_le hpos.ne'
  have hh := Nat.lt_log2_self (n := n)
  have h52 : 2 ^ n.log2 * 2 ^ (52 - n.log2) = 2 ^ 52 := by
    rw [← Nat.pow_add]
    congr 1
    omega
  have hunit : 0 < 2 ^ (52 - n.log2) := Nat.two_pow_pos _
  rw [Nat.shiftLeft_eq]
  refine ⟨by positivity, ?_, by omega, by omega, Or.inl ?_⟩
  · calc n * 2 ^ (52 - n.log2) < 2 ^ (n.log2 + 1) * 2 ^ (52 - n.log2) :=
          Nat.mul_lt_mul_of_pos_right hh hunit
      _ = 2 * (2 ^ n.log2 * 2 ^ (52 - n.log2)) := by rw [Nat.pow_succ]; ring
      _ = 2 ^ 53 := by rw [h52]; rfl
  · rw [← h52]
    exact Nat.mul_le_mul_right _ hl

theorem ofNat_value (n : Nat) (hn : n.log2 ≤ 52) :
    ((n <<< (52 - n.log2) : ℕ) : ℚ) * 2 ^ ((n.log2 : Int) - 52) = n := by
  rw [Nat.shiftLeft_eq, Nat.cast_mul, Nat.cast_pow, Nat.cast_ofNat, ← zpow_natCast, mul_assoc,
    ← zpow_add₀ (by norm_num), show ((52 - n.log2 : ℕ) : Int) + (n.log2 - 52) = 0 by omega,
    zpow_zero, mul_one]

theorem toFloat_eq {n : Nat} (hpos : 0 < n) (hn : n < 2 ^ 53) :
    n.toUInt64.toFloat = double .positive (isDouble_ofNat hpos hn) := by
  have hlog : n.log2 < 53 := (Nat.log2_lt hpos.ne').mpr hn
  have hword : n.toUInt64.toNat = n := by
    rw [Nat.toUInt64, UInt64.toNat_ofNat']
    omega
  have hd := isDouble_ofNat hpos hn
  have htarget : Format.binary64.targetExponent (totalExponent n 0) = (n.log2 : Int) - 52 := by
    rw [targetExponent_eq, totalExponent]
    omega
  have hround : UnpackedFloat.round .binary64 .positive n 0 =
      .finite .positive (n <<< (52 - n.log2)) (n.log2 - 52) hd.pos := by
    have hshift : (0 - ((n.log2 : Int) - 52)).toNat = 52 - n.log2 := by omega
    have hexp : 0 - ((52 - n.log2 : ℕ) : Int) = n.log2 - 52 := by omega
    unfold UnpackedFloat.round decreaseExponent
    simp only [htarget, hshift, hexp]
    apply roundWithAccuracy_eq hd RoundsTo.self _ (cutsTo_exact _ _)
    have hbits : 52 ≤ (n <<< (52 - n.log2)).log2 :=
      (Nat.le_log2 hd.pos.ne').mpr (hd.normal.elim id (by omega))
    rw [targetExponent_eq, totalExponent]
    omega
  change Float.ofModel (.pack (UnpackedFloat.normalize .binary64 (n.toUInt64.toNat : Int) 0 .positive)) = _
  rw [hword]
  unfold UnpackedFloat.normalize
  rw [show compare (n : Int) 0 = .gt from Int.compare_eq_gt.mpr (by omega)]
  simp only [Int.toNat_natCast, hround]
  rfl

theorem powersOfTen_table :
    ∀ i : Fin Float.exactlyRepresentablePowersOfTen.size,
      let f := Float.exactlyRepresentablePowersOfTen[i]
      let b := Binary.ofBits f.toBits
      f.isFinite = true ∧ signBit f.toBits = false ∧ -52 ≤ b.exponent ∧
        b.mantissa * 2 ^ (b.exponent + 52).toNat = 10 ^ i.val * 2 ^ 52 := by
  decide +kernel

theorem powerOfTen_eq {i : Nat} (hi : i < Float.exactlyRepresentablePowersOfTen.size) :
    ∃ m e, ∃ hd : IsDouble m e, Float.exactlyRepresentablePowersOfTen[i] = double .positive hd ∧
      (m : ℚ) * 2 ^ e = 10 ^ i := by
  obtain ⟨hfinite, hsign, hexp, hvalue⟩ := powersOfTen_table ⟨i, hi⟩
  simp only [Fin.getElem_fin] at hfinite hsign hexp hvalue
  generalize Float.exactlyRepresentablePowersOfTen[i] = f at *
  rcases finite_cases hfinite with ⟨hzero, -⟩ | ⟨hd, hf, -⟩
  · rw [hzero, Nat.zero_mul] at hvalue
    have : 0 < 10 ^ i * 2 ^ 52 := by positivity
    omega
  · rw [hsign] at hf
    refine ⟨_, _, hd, hf, ?_⟩
    have hq : ((Binary.ofBits f.toBits).mantissa : ℚ) *
        2 ^ ((Binary.ofBits f.toBits).exponent + 52).toNat = 10 ^ i * 2 ^ 52 := by
      exact_mod_cast hvalue
    rw [← zpow_natCast, Int.toNat_of_nonneg (by omega), zpow_add₀ (by norm_num), ← mul_assoc] at hq
    exact mul_right_cancel₀ (by norm_num) hq

theorem double_div {m : Nat} {e : Int} (hd : IsDouble m e) {m₁ m₂ : Nat} {e₁ e₂ : Int}
    (h₁ : IsDouble m₁ e₁) (h₂ : IsDouble m₂ e₂)
    (hx : RoundsTo (m₁ * 2 ^ e₁ / (m₂ * 2 ^ e₂)) m e) :
    double .positive h₁ / double .positive h₂ = double .positive hd := by
  change Float.ofModel (.pack (div .binary64 (Float.Model.unpack (.pack _))
    (Float.Model.unpack (.pack _)))) = _
  rw [unpack_pack h₁, unpack_pack h₂, div_eq hd _ _ h₁.pos h₂.pos hx]
  rfl

theorem double_mul {m : Nat} {e : Int} (hd : IsDouble m e) {m₁ m₂ : Nat} {e₁ e₂ : Int}
    (h₁ : IsDouble m₁ e₁) (h₂ : IsDouble m₂ e₂) (hbits : 2 ^ 52 ≤ m₁ * m₂)
    (hx : RoundsTo (m₁ * 2 ^ e₁ * (m₂ * 2 ^ e₂)) m e) :
    double .positive h₁ * double .positive h₂ = double .positive hd := by
  change Float.ofModel (.pack (mul .binary64 (Float.Model.unpack (.pack _))
    (Float.Model.unpack (.pack _)))) = _
  rw [unpack_pack h₁, unpack_pack h₂, mul_eq hd _ _ h₁.pos h₂.pos hbits hx]
  rfl

theorem ofScientific_slow {n : Nat} {k : Int} {m : Nat} {e : Int} (hd : IsDouble m e)
    (hx : RoundsTo (n * 10 ^ k) m e) (hn : n ≠ 0) :
    Float.ofModel (.ofScientific n k) = double .positive hd := by
  obtain ⟨hlow, hhigh⟩ := hx.size_bounds hd hn
  have hlen : (Nat.toDigits 10 n).length ≤ n.log2 + 1 := by
    rw [Nat.length_toDigits_le_iff (by decide) (by omega)]
    exact lt_of_lt_of_le Nat.lt_log2_self (Nat.pow_le_pow_left (by decide) _)
  unfold Float.Model.ofScientific UnpackedFloat.ofScientific
  rw [dif_neg hn, if_neg (by change ¬ k > 2 ^ 11; omega),
    if_neg (by change ¬ k < -(2 ^ 11 + _); omega)]
  split
  · next hk =>
    rw [mul_eq hd]
    · rfl
    · calc 2 ^ 52 ≤ 1 * 2 ^ 53 * 1 := by norm_num
        _ ≤ n <<< Format.binary64.mantissaBits * 10 ^ k.toNat := by
          rw [Nat.shiftLeft_eq]
          exact Nat.mul_le_mul (Nat.mul_le_mul_right _ (Nat.pos_of_ne_zero hn))
            (Nat.pow_pos (by decide))
    · convert hx using 1
      have hshift : ((n <<< Format.binary64.mantissaBits : ℕ) : ℚ) *
          2 ^ (-(Format.binary64.mantissaBits : Int)) = n := by
        rw [Nat.shiftLeft_eq]
        push_cast
        rw [zpow_neg, zpow_natCast, mul_assoc, mul_inv_cancel₀ (by positivity), mul_one]
      rw [hshift, zpow_zero, mul_one, Nat.cast_pow, Nat.cast_ofNat, ← zpow_natCast,
        Int.toNat_of_nonneg hk]
  · next hk =>
    rw [div_eq hd]
    · rfl
    · convert hx using 1
      rw [zpow_zero, mul_one, mul_one, Nat.cast_pow, Nat.cast_ofNat, ← zpow_natCast,
        Int.toNat_of_nonneg (by omega), zpow_neg, div_inv_eq_mul]

theorem ofScientific_fast {n i : Nat} {m : Nat} {e : Int} (hd : IsDouble m e) (hn : n ≠ 0)
    (hsmall : n < 2 ^ 53) (hi : i < Float.exactlyRepresentablePowersOfTen.size) :
    (RoundsTo (n / 10 ^ i) m e →
      n.toUInt64.toFloat / Float.exactlyRepresentablePowersOfTen[i] = double .positive hd) ∧
    (RoundsTo (n * 10 ^ i) m e →
      n.toUInt64.toFloat * Float.exactlyRepresentablePowersOfTen[i] = double .positive hd) := by
  have hpos := Nat.pos_of_ne_zero hn
  have hlog : n.log2 < 53 := (Nat.log2_lt hn).mpr hsmall
  obtain ⟨m₂, e₂, hd₂, hpower, hvalue⟩ := powerOfTen_eq hi
  have hd₁ := isDouble_ofNat hpos hsmall
  rw [toFloat_eq hpos hsmall, hpower]
  constructor
  · intro hx
    apply double_div hd
    rwa [ofNat_value n (by omega), hvalue]
  · intro hx
    apply double_mul hd
    · calc 2 ^ 52 = 2 ^ 52 * 1 := rfl
        _ ≤ _ := Nat.mul_le_mul (hd₁.normal.elim id (by omega)) hd₂.pos
    · rwa [ofNat_value n (by omega), hvalue]

/-- A decimal that rounds to a double is read as that double. -/
theorem nearest_eq {n : Nat} {k : Int} {m : Nat} {e : Int} (hd : IsDouble m e)
    (hx : RoundsTo (n * 10 ^ k) m e) : nearest n k = double .positive hd := by
  have hn : n ≠ 0 := by
    rintro rfl
    have := hx.lower hd
    rw [Nat.cast_zero, zero_mul] at this
    exact absurd this (not_le.mpr (zpow_pos (by norm_num) _))
  obtain ⟨hlow, hhigh⟩ := hx.size_bounds hd hn
  unfold nearest
  rw [if_neg hn]
  simp only
  rw [if_neg (by omega), if_neg (by omega)]
  unfold Float.ofScientific
  split
  · next hfast =>
    obtain ⟨hdiv, hmul⟩ := ofScientific_fast hd hn hfast.1
      (show k.natAbs < Float.exactlyRepresentablePowersOfTen.size from by
        change _ < 23
        omega)
    split
    · next hk =>
      have hneg : k < 0 := of_decide_eq_true hk
      apply hdiv
      convert hx using 1
      rw [div_eq_mul_inv, ← zpow_natCast, ← zpow_neg, show -(k.natAbs : Int) = k by omega]
    · next hk =>
      have hneg : ¬ k < 0 := fun h => hk (decide_eq_true h)
      apply hmul
      convert hx using 1
      rw [← zpow_natCast, show (k.natAbs : Int) = k by omega]
  · have hsign : (if decide (k < 0) = true then Int.negOfNat k.natAbs else Int.ofNat k.natAbs) = k := by
      split
      · next hk =>
        have hneg : k < 0 := of_decide_eq_true hk
        rw [Int.negOfNat_eq]
        change -(k.natAbs : Int) = k
        omega
      · next hk =>
        have hneg : ¬ k < 0 := fun h => hk (decide_eq_true h)
        change (k.natAbs : Int) = k
        omega
    simp only [hsign]
    exact ofScientific_slow hd hx hn

theorem isNaN_pack {u : UnpackedFloat} (hu : u.isNaN = false) :
    (Float.ofModel (.pack u)).isNaN = false := by
  change (UnpackedFloat.unpack .binary64 (UnpackedFloat.pack .binary64 u)).isNaN = false
  have hcomponents (s : Sign) (x : BitVec 11) (y : BitVec 52) (hxy : x = -1#11 → y = 0#52) :
      (UnpackedFloat.unpack .binary64 (packComponents .binary64 s x y)).isNaN = false := by
    unfold UnpackedFloat.unpack
    simp only [unpackExponent_packComponents, unpackMantissa_packComponents]
    split
    · next hx => rw [if_pos (hxy hx)]; rfl
    · split
      · split <;> rfl
      · rfl
  cases u with
  | notANumber => cases hu
  | infinity s => exact hcomponents _ _ _ fun _ => rfl
  | zero s => exact hcomponents _ _ _ fun _ => rfl
  | finite s m e hm =>
    simp only [UnpackedFloat.pack]
    split
    · exact hcomponents _ _ _ fun _ => rfl
    · next hbiased =>
      split
      · refine hcomponents _ _ _ fun hx => ?_
        have := congrArg BitVec.toNat hx
        rw [BitVec.toNat_ofNat] at this
        change ¬ 2 ^ 11 ≤ _ at hbiased
        change _ % 2 ^ 11 = 2047 at this
        omega
      · exact hcomponents _ _ _ fun hx => absurd hx (by decide)

theorem isNaN_roundWithAccuracy (s : Sign) (m : Nat) (e : Int) (acc : Accuracy) :
    (roundWithAccuracy .binary64 s m e acc).isNaN = false := by
  unfold roundWithAccuracy
  simp only
  split <;> rfl

theorem isNaN_neg {f : Float} (hf : f.isNaN = false) : (-f).isNaN = false := by
  change (Float.ofModel (.pack (UnpackedFloat.neg _))).isNaN = false
  change UnpackedFloat.isNaN _ = false at hf
  apply isNaN_pack
  revert hf
  generalize Float.Model.unpack _ = u
  cases u <;> exact id

theorem isNaN_ofScientific (n : Nat) (k : Int) :
    (Float.ofModel (.ofScientific n k)).isNaN = false := by
  apply isNaN_pack
  unfold UnpackedFloat.ofScientific
  repeat' split
  all_goals first | rfl | exact isNaN_roundWithAccuracy _ _ _ _

theorem isNaN_nearest (n : Nat) (k : Int) : (nearest n k).isNaN = false := by
  unfold nearest
  split
  · rfl
  · next hn =>
    simp only
    split
    · rfl
    · split
      · rfl
      · unfold Float.ofScientific
        split
        · next hfast =>
          obtain ⟨m₂, e₂, hd₂, hpower, -⟩ := powerOfTen_eq
            (show k.natAbs < Float.exactlyRepresentablePowersOfTen.size from by
              change _ < 23
              omega)
          have hd₁ := isDouble_ofNat (Nat.pos_of_ne_zero hn) hfast.1
          rw [toFloat_eq (Nat.pos_of_ne_zero hn) hfast.1, hpower]
          split
          · apply isNaN_pack
            change (div .binary64 (Float.Model.unpack (.pack _))
              (Float.Model.unpack (.pack _))).isNaN = false
            rw [unpack_pack hd₁, unpack_pack hd₂]
            exact isNaN_roundWithAccuracy _ _ _ _
          · apply isNaN_pack
            change (mul .binary64 (Float.Model.unpack (.pack _))
              (Float.Model.unpack (.pack _))).isNaN = false
            rw [unpack_pack hd₁, unpack_pack hd₂]
            exact isNaN_roundWithAccuracy _ _ _ _
        · exact isNaN_ofScientific _ _

theorem isNaN_read (negative : Bool) (whole places : List Char) (exponent : Int) :
    (read negative whole places exponent).isNaN = false := by
  unfold read
  simp only
  split
  · exact isNaN_neg (isNaN_nearest _ _)
  · exact isNaN_nearest _ _

end EventTally.Decimal
