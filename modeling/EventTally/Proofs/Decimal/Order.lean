import EventTally.Proofs.Decimal.Integer
import Mathlib.Order.WithBot
import Mathlib.Order.Compare
import Mathlib.Data.Rat.Cast.Order

/-! # Doubles as numbers

Every double but NaN is a rational number or an infinity (`Represents`). The comparisons of doubles are
those of these numbers, and the double of an integer that is exact represents that integer.
-/

namespace EventTally.Decimal

open Float.Model UnpackedFloat

abbrev Extended := WithBot (WithTop ℚ)

def ofRat (x : ℚ) : Extended := (x : WithTop ℚ)

theorem ofRat_lt_ofRat {x y : ℚ} : ofRat x < ofRat y ↔ x < y := by
  simp [ofRat]

theorem ofRat_inj {x y : ℚ} : ofRat x = ofRat y ↔ x = y := by
  simp [ofRat]

theorem bot_lt_ofRat (x : ℚ) : ⊥ < ofRat x := WithBot.bot_lt_coe _

theorem ofRat_lt_top (x : ℚ) : ofRat x < ⊤ := by
  unfold ofRat
  rw [← WithBot.coe_top, WithBot.coe_lt_coe]
  exact WithTop.coe_lt_top x

theorem compare_ofRat (x y : ℚ) : compare (ofRat x) (ofRat y) = compare x y := by
  rcases lt_trichotomy x y with h | rfl | h
  · rw [compare_lt_iff_lt.mpr h, compare_lt_iff_lt.mpr (ofRat_lt_ofRat.mpr h)]
  · rw [compare_eq_iff_eq.mpr rfl, compare_eq_iff_eq.mpr rfl]
  · rw [compare_gt_iff_gt.mpr h, compare_gt_iff_gt.mpr (ofRat_lt_ofRat.mpr h)]

/-- The number that the unpacked bits of a double are. NaN is none. -/
inductive Denotes : UnpackedFloat → Extended → Prop
  | bottom : Denotes (.infinity .negative) ⊥
  | top : Denotes (.infinity .positive) ⊤
  | zero (s : Sign) : Denotes (.zero s) (ofRat 0)
  | negative {m : Nat} {e : Int} (hd : IsDouble m e) :
      Denotes (.finite .negative m e hd.pos) (ofRat (-(m * 2 ^ e)))
  | positive {m : Nat} {e : Int} (hd : IsDouble m e) :
      Denotes (.finite .positive m e hd.pos) (ofRat (m * 2 ^ e))

/-- A double is a number. -/
def Represents (f : Float) (x : Extended) : Prop := Denotes f.toModel.unpack x

variable {f g : Float} {x y : Extended} {i j : Int64}

theorem represents_signedZero (s : Sign) : Represents (signedZero s) (ofRat 0) := by
  unfold Represents
  rw [unpack_signedZero]
  exact .zero s

theorem represents_double (s : Sign) {m : Nat} {e : Int} (hd : IsDouble m e) :
    Represents (double s hd) (ofRat (match s with | .negative => -(m * 2 ^ e) | .positive => m * 2 ^ e)) := by
  unfold Represents
  rw [show (double s hd).toModel.unpack = .finite s m e hd.pos from unpack_pack hd s]
  cases s with
  | negative => exact .negative hd
  | positive => exact .positive hd

theorem exists_represents (hf : f.isNaN = false) : ∃ x, Represents f x := by
  by_cases hfinite : f.isFinite = true
  · rcases finite_cases hfinite with ⟨-, hzero⟩ | ⟨hd, hdouble, -⟩
    · have h := represents_signedZero (if signBit f.toBits then .negative else .positive)
      rw [← hzero] at h
      exact ⟨_, h⟩
    · have h := represents_double (if signBit f.toBits then .negative else .positive) hd
      rw [← hdouble] at h
      exact ⟨_, h⟩
  · unfold Represents
    change f.toModel.unpack.isNaN = false at hf
    change ¬ f.toModel.unpack.isFinite = true at hfinite
    cases hunpack : f.toModel.unpack with
    | notANumber =>
      rw [hunpack] at hf
      cases hf
    | infinity s =>
      cases s with
      | negative => exact ⟨_, .bottom⟩
      | positive => exact ⟨_, .top⟩
    | zero s => exact ⟨_, .zero s⟩
    | finite s m e h =>
      rw [hunpack] at hfinite
      exact absurd rfl hfinite

variable {m m' : Nat} {e e' : Int}

theorem magnitude_pos (hd : IsDouble m e) : (0 : ℚ) < m * 2 ^ e :=
  mul_pos (by exact_mod_cast hd.pos) (by positivity)

theorem lt_of_exponent_lt (hd : IsDouble m e) (hd' : IsDouble m' e')
    (he : e < e') : (m : ℚ) * 2 ^ e < m' * 2 ^ e' := by
  have hlow := hd.low
  have hm : (m : ℚ) < 2 ^ 53 := by exact_mod_cast hd.small
  have hm' : (2 : ℚ) ^ 52 ≤ m' := by exact_mod_cast hd'.normal.resolve_right (by omega)
  have hunit : (0 : ℚ) < 2 ^ e := by positivity
  calc (m : ℚ) * 2 ^ e < 2 ^ 53 * 2 ^ e := mul_lt_mul_of_pos_right hm hunit
    _ = 2 ^ 52 * 2 ^ (e + 1) := by
      rw [zpow_add_one₀ (by norm_num)]
      ring
    _ ≤ m' * 2 ^ e' := by
      gcongr
      · norm_num
      · omega

theorem compare_magnitude (hd : IsDouble m e) (hd' : IsDouble m' e') :
    (compare e e').then (compare m m') = compare ((m : ℚ) * 2 ^ e) (m' * 2 ^ e') := by
  rcases lt_trichotomy e e' with he | rfl | he
  · rw [compare_lt_iff_lt.mpr he, compare_lt_iff_lt.mpr (lt_of_exponent_lt hd hd' he)]
    rfl
  · have hunit : (0 : ℚ) < 2 ^ e := by positivity
    rw [compare_eq_iff_eq.mpr rfl, Ordering.eq_then]
    rcases lt_trichotomy m m' with hm | rfl | hm
    · rw [compare_lt_iff_lt.mpr hm, compare_lt_iff_lt.mpr]
      exact mul_lt_mul_of_pos_right (by exact_mod_cast hm) hunit
    · rw [compare_eq_iff_eq.mpr rfl, compare_eq_iff_eq.mpr rfl]
    · rw [compare_gt_iff_gt.mpr hm, compare_gt_iff_gt.mpr]
      exact mul_lt_mul_of_pos_right (by exact_mod_cast hm) hunit
  · rw [compare_gt_iff_gt.mpr he, compare_gt_iff_gt.mpr (lt_of_exponent_lt hd' hd he)]
    rfl

theorem compare_neg (x y : ℚ) : compare (-x) (-y) = (compare x y).swap := by
  rcases lt_trichotomy x y with h | rfl | h
  · rw [compare_lt_iff_lt.mpr h, compare_gt_iff_gt.mpr (neg_lt_neg h)]
    rfl
  · rw [compare_eq_iff_eq.mpr rfl, compare_eq_iff_eq.mpr rfl]
    rfl
  · rw [compare_gt_iff_gt.mpr h, compare_lt_iff_lt.mpr (neg_lt_neg h)]
    rfl

theorem Denotes.compare_eq {u v : UnpackedFloat} (hu : Denotes u x) (hv : Denotes v y) :
    u.compare v = some (compare x y) := by
  have hlt {x y : Extended} (h : x < y) : compare x y = .lt := compare_lt_iff_lt.mpr h
  have hgt {x y : Extended} (h : y < x) : compare x y = .gt := compare_gt_iff_gt.mpr h
  have heq (x : Extended) : compare x x = .eq := compare_eq_iff_eq.mpr rfl
  cases hu with
  | bottom =>
    cases hv with
    | bottom => rw [heq]; rfl
    | top => rw [hlt ((bot_lt_ofRat 0).trans (ofRat_lt_top 0))]; rfl
    | zero | negative | positive => rw [hlt (bot_lt_ofRat _)]; rfl
  | top =>
    cases hv with
    | bottom => rw [hgt ((bot_lt_ofRat 0).trans (ofRat_lt_top 0))]; rfl
    | top => rw [heq]; rfl
    | zero | negative | positive => rw [hgt (ofRat_lt_top _)]; rfl
  | zero s =>
    cases hv with
    | bottom => rw [hgt (bot_lt_ofRat _)]; rfl
    | top => rw [hlt (ofRat_lt_top _)]; rfl
    | zero => rw [heq]; rfl
    | negative hd =>
      rw [hgt (ofRat_lt_ofRat.mpr (neg_lt_zero.mpr (magnitude_pos hd)))]
      rfl
    | positive hd =>
      rw [hlt (ofRat_lt_ofRat.mpr (magnitude_pos hd))]
      rfl
  | negative hd =>
    have hneg := neg_lt_zero.mpr (magnitude_pos hd)
    cases hv with
    | bottom => rw [hgt (bot_lt_ofRat _)]; rfl
    | top => rw [hlt (ofRat_lt_top _)]; rfl
    | zero => rw [hlt (ofRat_lt_ofRat.mpr hneg)]; rfl
    | negative hd' =>
      rw [compare_ofRat, compare_neg, ← compare_magnitude hd hd']
      rfl
    | positive hd' => rw [hlt (ofRat_lt_ofRat.mpr (hneg.trans (magnitude_pos hd')))]; rfl
  | positive hd =>
    have hpos := magnitude_pos hd
    cases hv with
    | bottom => rw [hgt (bot_lt_ofRat _)]; rfl
    | top => rw [hlt (ofRat_lt_top _)]; rfl
    | zero => rw [hgt (ofRat_lt_ofRat.mpr hpos)]; rfl
    | negative hd' =>
      rw [hgt (ofRat_lt_ofRat.mpr ((neg_lt_zero.mpr (magnitude_pos hd')).trans hpos))]
      rfl
    | positive hd' =>
      rw [compare_ofRat, ← compare_magnitude hd hd']
      rfl

theorem Represents.lt_iff (hf : Represents f x) (hg : Represents g y) : f < g ↔ x < y := by
  have hlt : f < g ↔ (f.toModel.unpack.compare g.toModel.unpack == some .lt) = true := by
    change decide (f.toModel < g.toModel) = true ↔ _
    rw [decide_eq_true_iff]
    rfl
  rw [hlt, hf.compare_eq hg, beq_iff_eq, Option.some.injEq, compare_lt_iff_lt]

theorem Represents.beq_iff (hf : Represents f x) (hg : Represents g y) : (f == g) = true ↔ x = y := by
  change (f.toModel.unpack.compare g.toModel.unpack == some .eq) = true ↔ _
  rw [hf.compare_eq hg, beq_iff_eq, Option.some.injEq, compare_eq_iff_eq]

theorem IsExact.represents (h : IsExact i) : Represents (ofInt64 i) (ofRat i.toInt) := by
  have hlow := Int64.le_toInt i
  have hhigh := Int64.toInt_lt i
  by_cases hzero : i.toInt = 0
  · rw [ofInt64_eq_signedZero hzero, hzero]
    exact represents_signedZero .positive
  · obtain ⟨m, e, z, hd, hfloat, hvalue, -⟩ := toFloat_cases (n := i.toInt.natAbs) (by omega) (by omega)
    unfold IsExact ofInt64 at h
    unfold ofInt64
    rw [hfloat] at h ⊢
    by_cases hneg : i.toInt < 0
    · rw [if_pos hneg, neg_double, integer?_double _ _ hvalue] at h
      have hz : -(z : Int) = i.toInt := Option.some.inj h
      rw [if_pos hneg, neg_double, ← hz, Int.cast_neg, Int.cast_natCast, ← hvalue]
      exact represents_double .negative hd
    · rw [if_neg hneg, integer?_double _ _ hvalue] at h
      have hz : (z : Int) = i.toInt := Option.some.inj h
      rw [if_neg hneg, ← hz, Int.cast_natCast, ← hvalue]
      exact represents_double .positive hd

end EventTally.Decimal
