import Mathlib

/-! # Rounding to doubles

Which rationals an operation on doubles rounds to a given double. A positive double is `m · 2^e`
with a mantissa of 53 bits, or fewer at the least exponent. The rationals that round to it lie
within half a unit of it, or within a quarter below it where the next smaller double is nearer.
`roundWithAccuracy_eq` says that rounding a cut-off rational of that interval gives the double;
`div_eq` and `mul_eq` say it of quotients and products.
-/

namespace EventTally.Decimal

open Float.Model UnpackedFloat

/-- `m · 2^e` is a positive double in the form in which doubles are kept. -/
structure IsDouble (m : Nat) (e : Int) : Prop where
  pos : 0 < m
  small : m < 2 ^ 53
  low : -1074 ≤ e
  high : e ≤ 971
  normal : 2 ^ 52 ≤ m ∨ e = -1074

/-- How far below `m · 2^e` a rational may lie and still round to it, in units of `2^e`. -/
def reachBelow (m : Nat) (e : Int) : ℚ := if m = 2 ^ 52 ∧ -1074 < e then 1 / 4 else 1 / 2

/-- The rationals that round to the double `m · 2^e`; ties go to even mantissas. -/
def RoundsTo (x : ℚ) (m : Nat) (e : Int) : Prop :=
  if m % 2 = 0 then (m - reachBelow m e) * 2 ^ e ≤ x ∧ x ≤ (m + 1 / 2) * 2 ^ e
  else (m - reachBelow m e) * 2 ^ e < x ∧ x < (m + 1 / 2) * 2 ^ e

theorem RoundsTo.bounds {x : ℚ} {m : Nat} {e : Int} (h : RoundsTo x m e) :
    (m - reachBelow m e) * 2 ^ e ≤ x ∧ x ≤ (m + 1 / 2) * 2 ^ e := by
  unfold RoundsTo at h
  split at h
  · exact h
  · exact ⟨h.1.le, h.2.le⟩

theorem RoundsTo.even_of_tie {x : ℚ} {m : Nat} {e : Int} (h : RoundsTo x m e)
    (htie : x = (m - reachBelow m e) * 2 ^ e ∨ x = (m + 1 / 2) * 2 ^ e) : m % 2 = 0 := by
  unfold RoundsTo at h
  split at h
  · assumption
  · rcases htie with rfl | rfl
    · exact absurd h.1 (lt_irrefl _)
    · exact absurd h.2 (lt_irrefl _)

theorem reachBelow_pos (m : Nat) (e : Int) : 0 < reachBelow m e := by
  unfold reachBelow
  split <;> norm_num

theorem reachBelow_le (m : Nat) (e : Int) : reachBelow m e ≤ 1 / 2 := by
  unfold reachBelow
  split <;> norm_num

theorem targetExponent_eq (t : Int) : Format.binary64.targetExponent t = max (t - 53) (-1074) := rfl

/-- An extended mantissa is `x / 2^e` cut off after its unit: its two bits compare the part that is
cut off with a half. -/
def CutsTo (x : ℚ) (em : ExtendedMantissa) (e : Int) : Prop :=
  ∃ r : ℚ, x = (em.mantissa + r) * 2 ^ e ∧ 0 ≤ r ∧ r < 1 ∧
    (em.roundBit = true ↔ 1 / 2 ≤ r) ∧ (em.stickyBit = true ↔ r ≠ 0 ∧ r ≠ 1 / 2)

theorem CutsTo.shiftRightOne {x : ℚ} {em : ExtendedMantissa} {e : Int} (h : CutsTo x em e) :
    CutsTo x em.shiftRightOne (e + 1) := by
  obtain ⟨r, hx, h0, h1, hround, hsticky⟩ := h
  have hsplit : (em.mantissa : ℚ) = 2 * (em.mantissa / 2 : ℕ) + (em.mantissa % 2 : ℕ) := by
    exact_mod_cast (Nat.div_add_mod em.mantissa 2).symm
  have hrest : ((em.roundBit || em.stickyBit) = true) ↔ r ≠ 0 := by
    rw [Bool.or_eq_true, hround, hsticky]
    constructor
    · rintro (h | ⟨h, -⟩)
      · linarith
      · exact h
    · intro hr
      by_cases hhalf : r = 1 / 2
      · exact Or.inl hhalf.ge
      · exact Or.inr ⟨hr, hhalf⟩
  refine ⟨((em.mantissa % 2 : ℕ) + r) / 2, ?_, by positivity, ?_, ?_, ?_⟩
  · rw [hx, hsplit, zpow_add_one₀ (by norm_num)]
    simp only [ExtendedMantissa.shiftRightOne]
    ring
  · rcases Nat.mod_two_eq_zero_or_one em.mantissa with h | h <;> rw [h] <;> push_cast <;> linarith
  · simp only [ExtendedMantissa.shiftRightOne, bne_iff_ne, ne_eq]
    rcases Nat.mod_two_eq_zero_or_one em.mantissa with h | h <;> rw [h] <;> push_cast
    · simp only [not_true_eq_false, false_iff]
      linarith
    · simp only [not_false_eq_true, true_iff]
      linarith
  · simp only [ExtendedMantissa.shiftRightOne]
    rw [hrest]
    rcases Nat.mod_two_eq_zero_or_one em.mantissa with h | h <;> rw [h] <;> push_cast
    · constructor
      · intro hr
        exact ⟨fun h => hr (by linarith), fun h => by linarith⟩
      · rintro ⟨hr, -⟩ rfl
        exact hr (by norm_num)
    · constructor
      · intro hr
        exact ⟨fun h => by linarith, fun h => hr (by linarith)⟩
      · rintro ⟨-, hr⟩ rfl
        exact hr (by norm_num)

theorem CutsTo.shiftRight {x : ℚ} {em : ExtendedMantissa} {e : Int} (h : CutsTo x em e) (k : Nat) :
    CutsTo x (em >>> k) (e + k) := by
  induction k with
  | zero =>
    change CutsTo x em (e + 0)
    rwa [add_zero]
  | succ k ih =>
    have hstep := ih.shiftRightOne
    rw [add_assoc] at hstep
    exact_mod_cast hstep

theorem CutsTo.roundedMantissa_eq {x : ℚ} {em : ExtendedMantissa} {e : Int} (h : CutsTo x em e)
    {m : Nat} (hlow : (m - 1 / 2 : ℚ) * 2 ^ e ≤ x) (hhigh : x ≤ (m + 1 / 2) * 2 ^ e)
    (htie : x = (m - 1 / 2 : ℚ) * 2 ^ e ∨ x = (m + 1 / 2) * 2 ^ e → m % 2 = 0) :
    em.roundedMantissa = m := by
  obtain ⟨r, rfl, h0, h1, hround, hsticky⟩ := h
  have hunit : (0 : ℚ) < 2 ^ e := zpow_pos (by norm_num) e
  have hl : (m : ℚ) - 1 / 2 ≤ em.mantissa + r := le_of_mul_le_mul_right hlow hunit
  have hh : (em.mantissa : ℚ) + r ≤ m + 1 / 2 := le_of_mul_le_mul_right hhigh hunit
  obtain ⟨n, a, b⟩ := em
  simp only at hl hh htie hround hsticky
  unfold ExtendedMantissa.roundedMantissa
  have hle : ∀ k : ℕ, (m : ℚ) < k + 1 → m ≤ k := fun k hk => Nat.lt_succ_iff.mp (by exact_mod_cast hk)
  have hge : ∀ k : ℕ, (k : ℚ) < m + 1 → k ≤ m := fun k hk => Nat.lt_succ_iff.mp (by exact_mod_cast hk)
  cases a with
  | false =>
    have hr : r < 1 / 2 := by simpa using hround
    have hmn : m ≤ n := hle n (by linarith)
    have hnm : n ≤ m := hge n (by linarith)
    cases b <;> exact le_antisymm hnm hmn
  | true =>
    have hr : 1 / 2 ≤ r := by simpa using hround
    have hmn : m ≤ n + 1 := hle (n + 1) (by push_cast; linarith)
    cases b with
    | false =>
      have hhalf : r = 1 / 2 := by
        by_contra hne
        have := hsticky.mpr ⟨by linarith, hne⟩
        simp at this
      have hnm : n ≤ m := hge n (by linarith)
      have heven : m % 2 = 0 := by
        apply htie
        rcases Nat.lt_or_ge n m with h | h
        · have hm : (m : ℚ) = n + 1 := by exact_mod_cast le_antisymm hmn h
          exact Or.inl (by rw [hhalf, hm]; ring)
        · have hm : (m : ℚ) = n := by exact_mod_cast le_antisymm h hnm
          exact Or.inr (by rw [hhalf, hm])
      change n + n % 2 = m
      omega
    | true =>
      have hhalf : 1 / 2 < r := lt_of_le_of_ne hr (Ne.symm (hsticky.mp rfl).2)
      have hnm : n + 1 ≤ m := hge (n + 1) (by push_cast; linarith)
      exact le_antisymm hnm hmn

theorem cutsTo_ofFraction (n d : Nat) (hd : 0 < d) (e : Int) :
    CutsTo (n / d * 2 ^ e)
      (.ofMantissaAndAccuracy (n / d) (accuracyOfFraction (n % d) d)) e := by
  have hd' : (0 : ℚ) < d := by exact_mod_cast hd
  have hlt : ((n % d : ℕ) : ℚ) < d := by exact_mod_cast Nat.mod_lt n hd
  have hsplit : (n : ℚ) = d * (n / d : ℕ) + (n % d : ℕ) := by
    exact_mod_cast (Nat.div_add_mod n d).symm
  have hmantissa : ∀ m a, (ExtendedMantissa.ofMantissaAndAccuracy m a).mantissa = m := by
    intro m a
    cases a with
    | exact => rfl
    | inexact o => cases o <;> rfl
  refine ⟨(n % d : ℕ) / d, ?_, by positivity, (div_lt_one hd').mpr hlt, ?_⟩
  · rw [hmantissa]
    congr 1
    field_simp
    exact hsplit
  · unfold accuracyOfFraction
    split
    · next hz => simp [hz, ExtendedMantissa.ofMantissaAndAccuracy]
    · next hz =>
      have hne : ((n % d : ℕ) : ℚ) / d ≠ 0 := by
        have : ((n % d : ℕ) : ℚ) ≠ 0 := by exact_mod_cast hz
        positivity
      have hcmp : ((1 : ℚ) / 2 ≤ (n % d : ℕ) / d ↔ d ≤ 2 * (n % d)) ∧
          (((n % d : ℕ) : ℚ) / d = 1 / 2 ↔ 2 * (n % d) = d) := by
        rw [div_le_div_iff₀ (by norm_num) hd', div_eq_div_iff hd'.ne' (by norm_num)]
        constructor
        · rw [one_mul, mul_comm _ (2 : ℚ)]
          exact_mod_cast Iff.rfl
        · rw [one_mul, mul_comm _ (2 : ℚ)]
          exact_mod_cast Iff.rfl
      rw [hcmp.1, ne_eq, ne_eq, hcmp.2]
      rcases hc : compare (2 * (n % d)) d with _ | _ | _
      · have := Nat.compare_eq_lt.mp hc
        simp only [ExtendedMantissa.ofMantissaAndAccuracy]
        simp [hne]
        omega
      · have := Nat.compare_eq_eq.mp hc
        simp only [ExtendedMantissa.ofMantissaAndAccuracy]
        simp [hne]
        omega
      · have := Nat.compare_eq_gt.mp hc
        simp only [ExtendedMantissa.ofMantissaAndAccuracy]
        simp [hne]
        omega

theorem CutsTo.log2_bounds {x : ℚ} {em : ExtendedMantissa} {e : Int} (h : CutsTo x em e)
    (hm : em.mantissa ≠ 0) :
    (2 : ℚ) ^ (em.mantissa.log2 + e) ≤ x ∧ x < (2 : ℚ) ^ (em.mantissa.log2 + 1 + e) := by
  obtain ⟨r, rfl, h0, h1, -, -⟩ := h
  have hunit : (0 : ℚ) < 2 ^ e := zpow_pos (by norm_num) e
  have hlow : ((2 : ℚ) ^ (em.mantissa.log2 : Int)) ≤ em.mantissa := by
    rw [zpow_natCast]
    exact_mod_cast Nat.log2_self_le hm
  have hhigh : (em.mantissa : ℚ) + 1 ≤ 2 ^ ((em.mantissa.log2 : Int) + 1) := by
    have := Nat.lt_log2_self (n := em.mantissa)
    rw [show (em.mantissa.log2 : Int) + 1 = (em.mantissa.log2 + 1 : ℕ) from rfl, zpow_natCast]
    exact_mod_cast this
  rw [zpow_add₀ (by norm_num), zpow_add₀ (by norm_num)]
  constructor
  · exact mul_le_mul_of_nonneg_right (by linarith) hunit.le
  · exact mul_lt_mul_of_pos_right (by linarith) hunit

theorem shiftToTargetExponent_exact {m : Nat} {e : Int} (hd : IsDouble m e) :
    shiftToTargetExponent .binary64 m e .exact = (⟨m, false, false⟩, e) := by
  have hlog : m.log2 < 53 := (Nat.log2_lt hd.pos.ne').mpr hd.small
  have hlow := hd.low
  have hshift : (Format.binary64.targetExponent (totalExponent m e) - e).toNat = 0 := by
    rw [targetExponent_eq, totalExponent]
    omega
  unfold shiftToTargetExponent shiftToExponent
  simp only [hshift]
  simp [HShiftRight.hShiftRight, Nat.repeat, ExtendedMantissa.ofMantissaAndAccuracy]

theorem shiftToTargetExponent_carry {e : Int} (he : -1074 ≤ e) :
    shiftToTargetExponent .binary64 (2 ^ 53) e .exact = (⟨2 ^ 52, false, false⟩, e + 1) := by
  have hshift : (Format.binary64.targetExponent (totalExponent (2 ^ 53) e) - e).toNat = 1 := by
    rw [targetExponent_eq, totalExponent, Nat.log2_two_pow]
    omega
  unfold shiftToTargetExponent shiftToExponent
  simp only [hshift]
  rfl

/-- Where a rational that rounds to `m · 2^e` is cut off: at the unit of the double, or at half of
it for the rationals just below a power of two. -/
theorem cut_exponent {x : ℚ} {m : Nat} {e : Int} (hd : IsDouble m e) (hx : RoundsTo x m e)
    {em : ExtendedMantissa} {e₀ : Int} (hcut : CutsTo x em e₀)
    (hfine : e₀ ≤ Format.binary64.targetExponent (totalExponent em.mantissa e₀)) :
    Format.binary64.targetExponent (totalExponent em.mantissa e₀) = e ∨
      Format.binary64.targetExponent (totalExponent em.mantissa e₀) = e - 1 ∧
        m = 2 ^ 52 ∧ -1074 < e ∧ x < 2 ^ 52 * 2 ^ e := by
  obtain ⟨hpos, hsmall, hlow, -, hnormal⟩ := hd
  obtain ⟨hxl, hxh⟩ := hx.bounds
  have hunit : (0 : ℚ) < 2 ^ e := zpow_pos (by norm_num) e
  have hpow : ∀ k : Nat, (2 : ℚ) ^ k * 2 ^ e = 2 ^ ((k : Int) + e) := by
    intro k
    rw [zpow_add₀ (by norm_num), zpow_natCast]
  have hlt : ∀ {a b : Int}, (2 : ℚ) ^ a < 2 ^ b → a < b := fun h =>
    (zpow_lt_zpow_iff_right₀ (by norm_num)).mp h
  have htop : x < 2 ^ ((53 : Int) + e) := by
    have hm : (m : ℚ) + 1 ≤ 2 ^ 53 := by exact_mod_cast hsmall
    calc x ≤ (m + 1 / 2) * 2 ^ e := hxh
      _ < 2 ^ 53 * 2 ^ e := mul_lt_mul_of_pos_right (by linarith) hunit
      _ = 2 ^ ((53 : Int) + e) := hpow 53
  rw [targetExponent_eq, totalExponent] at hfine ⊢
  by_cases hz : em.mantissa = 0
  · -- the mantissa is cut off entirely only below the least double
    left
    rw [hz, Nat.log2_zero] at hfine ⊢
    obtain ⟨r, rfl, -, hr, -, -⟩ := hcut
    rcases hnormal with hn | rfl
    · have hm : (2 : ℚ) ^ 52 ≤ m := by exact_mod_cast hn
      have hreach := reachBelow_le m e
      have he₀ : (2 : ℚ) ^ e₀ ≤ 2 ^ e := zpow_le_zpow_right₀ (by norm_num) (by omega)
      have h₀ : (0 : ℚ) < 2 ^ e₀ := zpow_pos (by norm_num) e₀
      rw [hz, Nat.cast_zero, zero_add] at hxl
      have h1 : (m - reachBelow m e) * 2 ^ e < 1 * 2 ^ e := by nlinarith
      have h2 := lt_of_mul_lt_mul_right h1 hunit.le
      linarith
    · omega
  · obtain ⟨hl, hh⟩ := hcut.log2_bounds hz
    have hup := hlt (lt_of_le_of_lt hl htop)
    rcases hnormal with hn | rfl
    · have hm : (2 : ℚ) ^ 52 ≤ m := by exact_mod_cast hn
      by_cases hpower : (2 : ℚ) ^ 52 * 2 ^ e ≤ x
      · left
        rw [hpow 52] at hpower
        have hdown := hlt (lt_of_le_of_lt hpower hh)
        push_cast at hdown
        omega
      · rw [not_le] at hpower
        have hmx : m - reachBelow m e < 2 ^ 52 :=
          lt_of_mul_lt_mul_right (lt_of_le_of_lt hxl hpower) hunit.le
        have hm52 : m = 2 ^ 52 := by
          have hreach := reachBelow_le m e
          have : (m : ℚ) < 2 ^ 52 + 1 := by linarith
          have : m < 2 ^ 52 + 1 := by exact_mod_cast this
          omega
        have hhalf : (2 : ℚ) ^ ((51 : Int) + e) ≤ x := by
          have hreach := reachBelow_le m e
          rw [← Nat.cast_ofNat (n := 51), ← hpow 51]
          calc (2 : ℚ) ^ 51 * 2 ^ e ≤ (m - reachBelow m e) * 2 ^ e :=
                mul_le_mul_of_nonneg_right (by linarith) hunit.le
            _ ≤ x := hxl
        have hdown := hlt (lt_of_le_of_lt hhalf hh)
        rw [hpow 52] at hpower
        have hup' := hlt (lt_of_le_of_lt hl hpower)
        push_cast at hup'
        rcases eq_or_lt_of_le hlow with he | he
        · left
          omega
        · right
          rw [hpow 52]
          exact ⟨by omega, hm52, he, hpower⟩
    · left
      omega

/-- Rounding a rational that rounds to a double gives that double. -/
theorem roundWithAccuracy_eq {x : ℚ} {m : Nat} {e : Int} (hd : IsDouble m e) (hx : RoundsTo x m e)
    (s : Sign) {m₀ : Nat} {e₀ : Int} {acc : Accuracy}
    (hcut : CutsTo x (.ofMantissaAndAccuracy m₀ acc) e₀)
    (hfine : e₀ ≤ Format.binary64.targetExponent (totalExponent m₀ e₀)) :
    roundWithAccuracy .binary64 s m₀ e₀ acc = .finite s m e hd.pos := by
  have hmantissa : (ExtendedMantissa.ofMantissaAndAccuracy m₀ acc).mantissa = m₀ := by
    cases acc with
    | exact => rfl
    | inexact o => cases o <;> rfl
  have hwhere := cut_exponent hd hx hcut (by rw [hmantissa]; exact hfine)
  rw [hmantissa] at hwhere
  obtain ⟨hxl, hxh⟩ := hx.bounds
  have hunit : (0 : ℚ) < 2 ^ e := zpow_pos (by norm_num) e
  set t := Format.binary64.targetExponent (totalExponent m₀ e₀) with ht
  have hshift := hcut.shiftRight (t - e₀).toNat
  have hexp : e₀ + (t - e₀).toNat = t := by omega
  rw [hexp] at hshift
  unfold roundWithAccuracy
  have hfirst : shiftToTargetExponent .binary64 m₀ e₀ acc =
      (ExtendedMantissa.ofMantissaAndAccuracy m₀ acc >>> (t - e₀).toNat, t) := by
    unfold shiftToTargetExponent shiftToExponent
    simp only [← ht, hexp]
  rw [hfirst]
  rcases hwhere with hte | ⟨hte, hm52, he, hpower⟩
  · rw [hte] at hshift ⊢
    have hround := hshift.roundedMantissa_eq (m := m)
      (by
        refine le_trans (mul_le_mul_of_nonneg_right ?_ hunit.le) hxl
        linarith [reachBelow_le m e]) hxh (by
        rintro (htie | htie)
        · have hge : (m - reachBelow m e) * 2 ^ e ≤ (m - 1 / 2) * 2 ^ e := htie ▸ hxl
          have hreach : reachBelow m e = 1 / 2 := by
            have := le_of_mul_le_mul_right hge hunit
            linarith [reachBelow_le m e]
          exact hx.even_of_tie (Or.inl (by rw [hreach]; exact htie))
        · exact hx.even_of_tie (Or.inr htie))
    simp only [hround, shiftToTargetExponent_exact hd, dif_neg hd.pos.ne']
  · rw [hte] at hshift ⊢
    have hreach : reachBelow m e = 1 / 4 := by
      rw [reachBelow, if_pos ⟨hm52, he⟩]
    have hm : (m : ℚ) = 2 ^ 52 := by exact_mod_cast hm52
    have hhalf : (2 : ℚ) ^ e = 2 * 2 ^ (e - 1) := by
      rw [zpow_sub_one₀ (by norm_num)]
      ring
    have hunit' : (0 : ℚ) < 2 ^ (e - 1) := zpow_pos (by norm_num) _
    rw [hreach, hm, hhalf] at hxl
    rw [hhalf] at hpower
    have hround := hshift.roundedMantissa_eq (m := 2 ^ 53)
      (by push_cast; linarith) (by push_cast; linarith) (by intro _; norm_num)
    have hlow := hd.low
    subst hm52
    simp only [hround, shiftToTargetExponent_carry (show -1074 ≤ e - 1 by omega),
      Int.sub_add_cancel]
    rfl

theorem cutsTo_exact (m : Nat) (e : Int) :
    CutsTo (m * 2 ^ e) (.ofMantissaAndAccuracy m .exact) e := by
  have h := cutsTo_ofFraction m 1 Nat.one_pos e
  simpa [accuracyOfFraction, Nat.mod_one] using h

/-- The product of two doubles, if it has at least the bits of a double. -/
theorem mul_eq {m : Nat} {e : Int} (hd : IsDouble m e) (s₁ s₂ : Sign) {m₁ m₂ : Nat} {e₁ e₂ : Int}
    (h₁ : 0 < m₁) (h₂ : 0 < m₂) (hbits : 2 ^ 52 ≤ m₁ * m₂)
    (hx : RoundsTo (m₁ * 2 ^ e₁ * (m₂ * 2 ^ e₂)) m e) :
    mul .binary64 (.finite s₁ m₁ e₁ h₁) (.finite s₂ m₂ e₂ h₂) = .finite (s₁ * s₂) m e hd.pos := by
  have hx' : (m₁ * 2 ^ e₁ * (m₂ * 2 ^ e₂) : ℚ) = (m₁ * m₂ : ℕ) * 2 ^ (e₁ + e₂) := by
    rw [zpow_add₀ (by norm_num)]
    push_cast
    ring
  rw [hx'] at hx
  have hlog : 52 ≤ (m₁ * m₂).log2 := (Nat.le_log2 (by positivity)).mpr hbits
  refine roundWithAccuracy_eq hd hx _ (cutsTo_exact _ _) ?_
  rw [targetExponent_eq, totalExponent]
  omega

/-- The quotient of two doubles. -/
theorem div_eq {m : Nat} {e : Int} (hd : IsDouble m e) (s₁ s₂ : Sign) {m₁ m₂ : Nat} {e₁ e₂ : Int}
    (h₁ : 0 < m₁) (h₂ : 0 < m₂) (hx : RoundsTo (m₁ * 2 ^ e₁ / (m₂ * 2 ^ e₂)) m e) :
    div .binary64 (.finite s₁ m₁ e₁ h₁) (.finite s₂ m₂ e₂ h₂) = .finite (s₁ / s₂) m e hd.pos := by
  set t := min (e₁ - e₂)
    (Format.binary64.targetExponent (totalExponent m₁ e₁ - totalExponent m₂ e₂)) with ht
  set k := (e₁ - e₂ - t).toNat with hk
  have hkt : e₁ - e₂ = k + t := by omega
  have hx' : (m₁ * 2 ^ e₁ / (m₂ * 2 ^ e₂) : ℚ) = (m₁ <<< k : ℕ) / m₂ * 2 ^ t := by
    have hm₂ : (m₂ : ℚ) ≠ 0 := by exact_mod_cast h₂.ne'
    rw [Nat.shiftLeft_eq, Nat.cast_mul, Nat.cast_pow, Nat.cast_ofNat, ← zpow_natCast]
    rw [show (m₁ * 2 ^ e₁ / (m₂ * 2 ^ e₂) : ℚ) = m₁ / m₂ * (2 ^ e₁ / 2 ^ e₂) by ring,
      ← zpow_sub₀ (by norm_num), hkt, zpow_add₀ (by norm_num)]
    ring
  rw [hx'] at hx
  have hfine : t ≤ Format.binary64.targetExponent (totalExponent (m₁ <<< k / m₂) t) := by
    have hl₁ := Nat.log2_self_le h₁.ne'
    have hl₂ := Nat.lt_log2_self (n := m₂)
    rw [targetExponent_eq, totalExponent] at ht ⊢
    rw [totalExponent] at ht
    by_cases hmin : t ≤ -1074
    · omega
    · -- the quotient then has at least 53 bits
      obtain ⟨j, hj⟩ : ∃ j : Nat, m₁.log2 + k = j + (m₂.log2 + 1) ∧ 52 ≤ j :=
        ⟨m₁.log2 + k - (m₂.log2 + 1), by omega⟩
      have hquot : 2 ^ j ≤ m₁ <<< k / m₂ := by
        rw [Nat.le_div_iff_mul_le h₂, Nat.shiftLeft_eq]
        calc 2 ^ j * m₂ ≤ 2 ^ j * 2 ^ (m₂.log2 + 1) := Nat.mul_le_mul_left _ hl₂.le
          _ = 2 ^ m₁.log2 * 2 ^ k := by rw [← Nat.pow_add, ← Nat.pow_add, hj.1]
          _ ≤ m₁ * 2 ^ k := Nat.mul_le_mul_right _ hl₁
      have hlog : j ≤ (m₁ <<< k / m₂).log2 :=
        (Nat.le_log2 (Nat.ne_of_gt (lt_of_lt_of_le (Nat.two_pow_pos j) hquot))).mpr hquot
      omega
  exact roundWithAccuracy_eq hd hx _ (cutsTo_ofFraction _ _ h₂ _) hfine

end EventTally.Decimal
