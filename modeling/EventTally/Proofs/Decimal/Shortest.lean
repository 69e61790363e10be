import EventTally.Proofs.Decimal.Nearest

/-! # Shortest digits identify their double

The interval that is searched holds exactly the rationals that round to the double, and a grid of
17 digits is finer than the interval is wide, so the search always ends with digits that round to
the double (`shortest_spec`).
-/

namespace EventTally.Decimal

open Float.Model UnpackedFloat

/-- The number that digits stand for. -/
def Digits.value (d : Digits) : ℚ := natOfDigits d.digits * 10 ^ (d.point - d.digits.length)

/-- The bits of a double as they are kept: the flag says when the next smaller double is nearer. -/
structure Binary.IsDouble (b : Binary) : Prop where
  double : Decimal.IsDouble b.mantissa b.exponent
  atPower : b.atPower = decide (b.mantissa = 2 ^ 52 ∧ -1074 < b.exponent)

theorem zpow_split (x : ℚ) (hx : x ≠ 0) (e : Int) : x ^ e = x ^ e.toNat / x ^ (-e).toNat := by
  rw [← zpow_natCast, ← zpow_natCast, ← zpow_sub₀ hx]
  congr 1
  omega

theorem Binary.interval_scale_pos (b : Binary) : 0 < b.interval.scale :=
  Nat.mul_pos (by decide) (Nat.two_pow_pos _)

theorem Binary.interval_value (b : Binary) :
    (b.interval.value : ℚ) / b.interval.scale = b.mantissa * 2 ^ b.exponent := by
  rw [zpow_split 2 (by norm_num)]
  simp only [Binary.interval, Nat.pow_eq]
  push_cast
  field_simp

theorem Binary.interval_high (b : Binary) :
    (b.interval.high : ℚ) / b.interval.scale = (b.mantissa + 1 / 2) * 2 ^ b.exponent := by
  rw [zpow_split 2 (by norm_num)]
  simp only [Binary.interval, Nat.pow_eq]
  push_cast
  field_simp
  ring

theorem Binary.IsDouble.interval_low {b : Binary} (hb : b.IsDouble) :
    (b.interval.low : ℚ) / b.interval.scale =
      (b.mantissa - reachBelow b.mantissa b.exponent) * 2 ^ b.exponent := by
  have hm := hb.double.pos
  rw [zpow_split 2 (by norm_num)]
  simp only [Binary.interval, Nat.pow_eq, reachBelow, hb.atPower, decide_eq_true_eq]
  split
  · rw [Nat.cast_mul, Nat.cast_sub (by omega)]
    push_cast
    field_simp
  · rw [Nat.cast_mul, Nat.cast_sub (by omega)]
    push_cast
    field_simp
    ring

theorem Binary.IsDouble.contains_iff {b : Binary} (hb : b.IsDouble) (n : Nat) {d : Nat}
    (hd : 0 < d) :
    b.interval.contains n d = true ↔ RoundsTo ((n : ℚ) / d) b.mantissa b.exponent := by
  have hscale : (0 : ℚ) < b.interval.scale := by exact_mod_cast b.interval_scale_pos
  have hd : (0 : ℚ) < d := by exact_mod_cast hd
  have hclosed : b.interval.closed = decide (b.mantissa % 2 = 0) := rfl
  unfold RoundsTo Interval.contains
  rw [← hb.interval_low, ← b.interval_high, div_le_div_iff₀ hscale hd, div_le_div_iff₀ hd hscale,
    div_lt_div_iff₀ hscale hd, div_lt_div_iff₀ hd hscale, hclosed]
  norm_cast
  split
  · next h => simp [of_decide_eq_true h]
  · next h => simp [of_decide_eq_false (eq_false_of_ne_true h)]

theorem shrink_spec (d : Nat) (hd : 0 < d) (fuel k n : Nat)
    (hfuel : (10 : ℚ) ^ (-(fuel : Int) - 1) ≤ (n : ℚ) / d) :
    (10 : ℚ) ^ (magnitude.shrink d fuel k n + k - 1) ≤ (n : ℚ) / d := by
  have hd' : (0 : ℚ) < d := by exact_mod_cast hd
  induction fuel generalizing k n with
  | zero =>
    unfold magnitude.shrink
    rw [neg_add_cancel]
    simpa using hfuel
  | succ fuel ih =>
    unfold magnitude.shrink
    split
    · next h =>
      have h : (d : ℚ) ≤ n * 10 := by exact_mod_cast h
      rw [neg_add_cancel, zero_sub, zpow_neg_one, le_div_iff₀ hd', inv_mul_le_iff₀ (by norm_num)]
      linarith
    · have hstep : ((n * 10 : ℕ) : ℚ) / d = n / d * 10 := by
        push_cast
        ring
      have hten (e : Int) : (10 : ℚ) ^ (e + 1) = 10 ^ e * 10 := zpow_add_one₀ (by norm_num) e
      have := ih (k + 1) (n * 10) (by
        rw [hstep, show -(fuel : Int) - 1 = -((fuel + 1 : ℕ) : Int) - 1 + 1 by omega, hten]
        exact mul_le_mul_of_nonneg_right hfuel (by norm_num))
      rw [hstep, show magnitude.shrink d fuel (k + 1) (n * 10) + ((k + 1 : ℕ) : Int) - 1 =
        magnitude.shrink d fuel (k + 1) (n * 10) + (k : Int) - 1 + 1 by omega, hten] at this
      exact le_of_mul_le_mul_right this (by norm_num)

theorem magnitude_le {n d : Nat} (hd : 0 < d) (hsmall : (10 : ℚ) ^ (-401 : Int) ≤ (n : ℚ) / d) :
    (10 : ℚ) ^ (magnitude n d - 1) ≤ (n : ℚ) / d := by
  unfold magnitude
  split
  · next h =>
    have hne : n / d ≠ 0 := (Nat.div_pos h hd).ne'
    exact (length_toDigits_bounds hne).1.trans Nat.cast_div_le
  · have := shrink_spec d hd 400 0 n hsmall
    simpa using this

theorem ten_zpow_le_double {m : Nat} {e : Int} (hd : IsDouble m e) :
    (10 : ℚ) ^ (-401 : Int) ≤ m * 2 ^ e :=
  calc (10 : ℚ) ^ (-401 : Int) ≤ 10 ^ (-331 : Int) := zpow_le_zpow_right₀ (by norm_num) (by decide)
    _ ≤ 2 ^ (-1075 : Int) := ten_zpow_lt_lower.le
    _ ≤ m * 2 ^ e := RoundsTo.self.lower hd

theorem grid_point (n : Nat) (e : Int) :
    ((n * Nat.pow 10 e.toNat : ℕ) : ℚ) / (Nat.pow 10 (-e).toNat : ℕ) = n * 10 ^ e := by
  rw [zpow_split 10 (by norm_num)]
  simp only [Nat.pow_eq]
  push_cast
  ring

theorem Binary.IsDouble.contains_grid_iff {b : Binary} (hb : b.IsDouble) (n : Nat) (e : Int) :
    b.interval.contains (n * Nat.pow 10 e.toNat) (Nat.pow 10 (-e).toNat) = true ↔
      RoundsTo (n * 10 ^ e) b.mantissa b.exponent := by
  rw [hb.contains_iff _ (show 0 < Nat.pow 10 _ from Nat.pow_pos (by decide)), grid_point]

theorem Binary.IsDouble.roundsTo_of_onGrid {b : Binary} (hb : b.IsDouble) {count n : Nat} {k : Int}
    (h : b.interval.onGrid count k = some n) :
    RoundsTo (n * 10 ^ (k - count)) b.mantissa b.exponent := by
  rw [← hb.contains_grid_iff]
  unfold Interval.onGrid at h
  simp only at h
  split at h
  · next hboth =>
    simp only [Bool.and_eq_true] at hboth
    split at h
    · cases h
      exact hboth.1.2
    · split at h
      · cases h
        exact hboth.2
      · split at h
        · cases h
          exact hboth.1.2
        · cases h
          exact hboth.2
  · split at h
    · next hlow =>
      cases h
      exact (Bool.and_eq_true _ _ ▸ hlow).2
    · split at h
      · next hhigh =>
        cases h
        exact hhigh
      · cases h

theorem RoundsTo.of_lt {x : ℚ} {m : Nat} {e : Int} (hlow : (m - reachBelow m e) * 2 ^ e < x)
    (hhigh : x < (m + 1 / 2) * 2 ^ e) : RoundsTo x m e := by
  unfold RoundsTo
  split
  · exact ⟨hlow.le, hhigh.le⟩
  · exact ⟨hlow, hhigh⟩

theorem grid_floor (n : Nat) {d : Nat} (hd : 0 < d) (e : Int) :
    let floor := n * Nat.pow 10 (-e).toNat / (d * Nat.pow 10 e.toNat)
    floor * (10 : ℚ) ^ e ≤ (n : ℚ) / d ∧ (n : ℚ) / d < (floor + 1 : ℕ) * (10 : ℚ) ^ e := by
  intro floor
  have hd' : (0 : ℚ) < d := by exact_mod_cast hd
  have hup : (0 : ℚ) < 10 ^ (-e).toNat := by positivity
  have hpos : 0 < d * 10 ^ e.toNat := by positivity
  have hlow : floor * (d * 10 ^ e.toNat) ≤ n * 10 ^ (-e).toNat := Nat.div_mul_le_self _ _
  have hhigh : n * 10 ^ (-e).toNat < (floor + 1) * (d * 10 ^ e.toNat) := by
    rw [Nat.mul_comm (floor + 1)]
    exact Nat.lt_mul_div_succ _ hpos
  rw [zpow_split 10 (by norm_num), ← mul_div_assoc, ← mul_div_assoc, div_le_div_iff₀ hup hd',
    div_lt_div_iff₀ hd' hup]
  constructor
  · calc (floor : ℚ) * 10 ^ e.toNat * d = ((floor * (d * 10 ^ e.toNat) : ℕ) : ℚ) := by
          push_cast
          ring
      _ ≤ ((n * 10 ^ (-e).toNat : ℕ) : ℚ) := by exact_mod_cast hlow
      _ = n * 10 ^ (-e).toNat := by push_cast; rfl
  · calc (n : ℚ) * 10 ^ (-e).toNat = ((n * 10 ^ (-e).toNat : ℕ) : ℚ) := by push_cast; rfl
      _ < (((floor + 1) * (d * 10 ^ e.toNat) : ℕ) : ℚ) := by exact_mod_cast hhigh
      _ = (floor + 1 : ℕ) * 10 ^ e.toNat * d := by
          push_cast
          ring

/-- Seventeen digits are enough: a grid this fine has a point on one side of the double that rounds
to it. -/
theorem IsDouble.neighbour_roundsTo {m : Nat} {e : Int} (hd : IsDouble m e) {floor : Nat} {s : ℚ}
    (hs : s * 10 ^ 16 ≤ m * 2 ^ e) (hfloor : floor * s ≤ m * 2 ^ e)
    (hceil : m * 2 ^ e < (floor + 1 : ℕ) * s) :
    RoundsTo (floor * s) m e ∨ RoundsTo ((floor + 1 : ℕ) * s) m e := by
  have hunit : (0 : ℚ) < 2 ^ e := zpow_pos (by norm_num) _
  have hreach := reachBelow_pos m e
  by_contra hnone
  obtain ⟨hlow, hhigh⟩ := not_or.mp hnone
  have hbelow : floor * s ≤ (m - reachBelow m e) * 2 ^ e := by
    by_contra hlt
    refine hlow (RoundsTo.of_lt (not_le.mp hlt) (hfloor.trans_lt ?_))
    exact mul_lt_mul_of_pos_right (by linarith) hunit
  have habove : (m + 1 / 2) * 2 ^ e ≤ (floor + 1 : ℕ) * s := by
    by_contra hlt
    refine hhigh (RoundsTo.of_lt (lt_trans ?_ hceil) (not_le.mp hlt))
    exact mul_lt_mul_of_pos_right (by linarith) hunit
  have hwide : (1 / 2 + reachBelow m e) * 2 ^ e ≤ s := by
    push_cast at habove
    linarith
  unfold reachBelow at hwide
  split at hwide
  · next hpower =>
    rw [hpower.1] at hs
    push_cast at hs
    linarith
  · have hsmall : (m : ℚ) * 2 ^ e ≤ 2 ^ 53 * 2 ^ e :=
      mul_le_mul_of_nonneg_right (by exact_mod_cast hd.small.le) hunit.le
    linarith

theorem Binary.IsDouble.onGrid_seventeen {b : Binary} (hb : b.IsDouble) {k : Int}
    (hk : (10 : ℚ) ^ (k - 1) ≤ b.mantissa * 2 ^ b.exponent) :
    b.interval.onGrid 17 k ≠ none := by
  obtain ⟨hfloor, hceil⟩ := grid_floor b.interval.value b.interval_scale_pos (k - (17 : ℕ))
  rw [b.interval_value] at hfloor hceil
  unfold Interval.onGrid
  simp only
  generalize b.interval.value * Nat.pow 10 (-(k - (17 : ℕ))).toNat /
    (b.interval.scale * Nat.pow 10 (k - (17 : ℕ)).toNat) = floor at hfloor hceil ⊢
  have hspacing : (10 : ℚ) ^ (k - (17 : ℕ)) * 10 ^ 16 ≤ b.mantissa * 2 ^ b.exponent := by
    rw [← zpow_natCast, ← zpow_add₀ (by norm_num)]
    convert hk using 2
    push_cast
    ring
  have hpos : 0 < floor := by
    rw [Nat.pos_iff_ne_zero]
    rintro rfl
    have hstep : (0 : ℚ) < 10 ^ (k - (17 : ℕ)) := zpow_pos (by norm_num) _
    rw [Nat.zero_add, Nat.cast_one, one_mul] at hceil
    linarith
  have hin := hb.double.neighbour_roundsTo hspacing hfloor hceil
  rw [← hb.contains_grid_iff, ← hb.contains_grid_iff] at hin
  rcases hin with hin | hin
  · rw [hin, decide_eq_true hpos]
    simp only [Bool.and_self, Bool.true_and, if_true]
    repeat' split
    all_goals exact Option.some_ne_none _
  · rw [hin]
    simp only [Bool.and_true, if_true]
    repeat' split
    all_goals exact Option.some_ne_none _

theorem natOfDigits_append (cs ds : List Char) :
    natOfDigits (cs ++ ds) = 10 ^ ds.length * natOfDigits cs + natOfDigits ds := by
  change Nat.ofDigitChars 10 (cs ++ ds) 0 = _
  rw [Nat.ofDigitChars_append, Nat.ofDigitChars_eq_ofDigitChars_zero]
  rfl

theorem natOfDigits_zeros (z : Nat) : natOfDigits (List.replicate z '0') = 0 :=
  Nat.ofDigitChars_replicate_zero

theorem natOfDigits_toDigits (n : Nat) : natOfDigits (Nat.toDigits 10 n) = n :=
  Nat.ofDigitChars_ten_toDigits

theorem head_toDigits {n : Nat} (hn : n ≠ 0) : (Nat.toDigits 10 n).head? ≠ some '0' := by
  induction n using Nat.strongRecOn with
  | ind n ih =>
    by_cases hlt : n < 10
    · have hdigit : ∀ d < 10, d ≠ 0 → [d.digitChar].head? ≠ some '0' := by decide
      rw [Nat.toDigits_of_lt_base hlt]
      exact hdigit n hlt hn
    · rw [Nat.toDigits_of_base_le (by decide) (by omega),
        List.head?_append_of_ne_nil _ Nat.toDigits_ne_nil]
      exact ih (n / 10) (by omega) (by omega)

/-- Digits as they are written: no zero in front, and no point without digits. -/
structure Digits.Proper (d : Digits) : Prop where
  digit : ∀ c ∈ d.digits, c.isDigit = true
  head : d.digits.head? ≠ some '0'
  zero : d.digits = [] → d.point = 0

theorem Digits.trim_append (d : Digits) :
    ∃ z, d.digits = d.trim.digits ++ List.replicate z '0' := by
  refine ⟨(d.digits.reverse.takeWhile (· = '0')).length, ?_⟩
  have hzeros : d.digits.reverse.takeWhile (· = '0') =
      List.replicate (d.digits.reverse.takeWhile (· = '0')).length '0' := by
    rw [List.eq_replicate_iff]
    refine ⟨rfl, fun c hc => ?_⟩
    simpa using List.mem_takeWhile_imp hc
  conv_lhs => rw [← List.reverse_reverse d.digits,
    ← List.takeWhile_append_dropWhile (p := (· = '0')) (l := d.digits.reverse)]
  rw [List.reverse_append, hzeros, List.reverse_replicate, List.length_replicate]
  rfl

theorem Digits.value_trim (d : Digits) : d.trim.value = d.value := by
  obtain ⟨z, hz⟩ := d.trim_append
  have hpoint : d.trim.point = d.point := rfl
  unfold Digits.value
  rw [hz, natOfDigits_append, natOfDigits_zeros, List.length_append, List.length_replicate,
    hpoint, Nat.add_zero, Nat.cast_mul, Nat.cast_pow, Nat.cast_ofNat, mul_right_comm,
    ← zpow_natCast, ← zpow_add₀ (by norm_num), mul_comm]
  congr 2
  push_cast
  ring

theorem Binary.IsDouble.shortest_spec {b : Binary} (hb : b.IsDouble) :
    RoundsTo b.shortest.value b.mantissa b.exponent ∧ b.shortest.Proper := by
  set k := magnitude b.interval.value b.interval.scale with hk
  obtain ⟨⟨count, n⟩, hhit⟩ : ∃ hit, ((List.range 17).findSome? fun j =>
      (b.interval.onGrid (j + 1) k).map fun n => (j + 1, n)) = some hit := by
    rw [← Option.isSome_iff_exists, List.findSome?_isSome_iff]
    refine ⟨16, by decide, ?_⟩
    have hsize := magnitude_le (n := b.interval.value) b.interval_scale_pos
      (b.interval_value ▸ ten_zpow_le_double hb.double)
    rw [b.interval_value] at hsize
    rw [Option.isSome_map, Option.isSome_iff_ne_none]
    exact hb.onGrid_seventeen hsize
  have hgrid : b.interval.onGrid count k = some n := by
    obtain ⟨j, -, hj⟩ := List.exists_of_findSome?_eq_some hhit
    obtain ⟨n', hn', heq⟩ := Option.map_eq_some_iff.mp hj
    cases heq
    exact hn'
  set d : Digits := ⟨Nat.toDigits 10 n, k + (((Nat.toDigits 10 n).length : Int) - count)⟩ with hd
  have hshort : b.shortest = d.trim := by
    unfold Binary.shortest
    simp only [← hk, hhit, hd]
  have hround := hb.roundsTo_of_onGrid hgrid
  have hvalue : b.shortest.value = n * 10 ^ (k - count) := by
    rw [hshort, Digits.value_trim]
    unfold Digits.value
    simp only [hd]
    rw [natOfDigits_toDigits]
    congr 2
    ring
  have hpos : (0 : ℚ) < b.shortest.value := by
    rw [hvalue]
    exact lt_of_lt_of_le (zpow_pos (by norm_num) _) (hround.lower hb.double)
  refine ⟨hvalue ▸ hround, ?_⟩
  obtain ⟨z, hz⟩ := d.trim_append
  rw [← hshort] at hz
  have hne : b.shortest.digits ≠ [] := by
    intro hnil
    unfold Digits.value at hpos
    rw [hnil] at hpos
    simp [natOfDigits] at hpos
  refine ⟨fun c hc => ?_, ?_, fun hnil => absurd hnil hne⟩
  · have hmem : c ∈ d.digits := by
      rw [hz]
      exact List.mem_append_left _ hc
    exact Nat.isDigit_of_mem_toDigits (by decide) (by decide) hmem
  · have hn : n ≠ 0 := by
      rintro rfl
      rw [hvalue] at hpos
      simp at hpos
    have := head_toDigits hn
    change d.digits.head? ≠ _ at this
    rwa [hz, List.head?_append_of_ne_nil _ hne] at this

theorem shortest_spec {f : Float} (hf : f.isFinite = true) :
    let s : Sign := if signBit f.toBits then .negative else .positive
    (shortest f).Proper ∧
      ((shortest f).digits = [] ∧ f = signedZero s ∨
        ∃ m e, ∃ hd : IsDouble m e, RoundsTo (shortest f).value m e ∧ f = double s hd) := by
  intro s
  rcases finite_cases hf with ⟨hzero, hf⟩ | ⟨hd, hf, hpower⟩
  · have hshort : shortest f = ⟨[], 0⟩ := by
      unfold shortest
      rw [if_pos hzero]
    rw [hshort]
    exact ⟨⟨by simp, by simp, fun _ => rfl⟩, Or.inl ⟨rfl, hf⟩⟩
  · have hshort : shortest f = (Binary.ofBits f.toBits).shortest := by
      unfold shortest
      rw [if_neg hd.pos.ne']
    have hb : (Binary.ofBits f.toBits).IsDouble := ⟨hd, hpower⟩
    rw [hshort]
    exact ⟨hb.shortest_spec.2, Or.inr ⟨_, _, hd, hb.shortest_spec.1, hf⟩⟩

end EventTally.Decimal
