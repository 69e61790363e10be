import EventTally.Proofs.Decimal.Shortest

/-! # Numerals

The parts of a written number: whole digits, places and an exponent. The texts of a double are
numerals that denote it (`plainText_numeral`, `compactText_numeral`), and so reading them gives the
double back (`readPlain?_plainText`).
-/

namespace EventTally.Decimal

open Float.Model UnpackedFloat

/-- The parts of a written number; `power` is the exponent with its sign. -/
structure Numeral where
  negative : Bool
  whole : List Char
  places : List Char
  power : List Char

namespace Numeral

def sign (n : Numeral) : List Char := if n.negative then ['-'] else []

def pointed (n : Numeral) : List Char := if n.places = [] then [] else '.' :: n.places

def raised (n : Numeral) : List Char := if n.power = [] then [] else 'e' :: n.power

def chars (n : Numeral) : List Char := n.sign ++ (n.whole ++ (n.pointed ++ n.raised))

structure Proper (n : Numeral) : Prop where
  whole : ∀ c ∈ n.whole, c.isDigit = true
  whole_ne : n.whole ≠ []
  head : n.whole = ['0'] ∨ n.whole.head? ≠ some '0'
  places : ∀ c ∈ n.places, c.isDigit = true
  power : n.power = [] ∨ ∃ mark ds, n.power = mark :: ds ∧ (mark = '+' ∨ mark = '-') ∧ ds ≠ [] ∧
    ∀ c ∈ ds, c.isDigit = true

def value (n : Numeral) : ℚ :=
  natOfDigits (n.whole ++ n.places) * 10 ^ (readInt n.power - n.places.length)

def float (n : Numeral) : Float := read n.negative n.whole n.places (readInt n.power)

end Numeral

theorem isDigit_ne {c d : Char} (hc : c.isDigit = true) (hd : d.isDigit = false) : c ≠ d := by
  rintro rfl
  rw [hc] at hd
  cases hd

theorem splitSign_digit {c : Char} (hc : c.isDigit = true) (cs : List Char) :
    splitSign (c :: cs) = (false, c :: cs) := by
  have hminus : c ≠ '-' := isDigit_ne hc (by decide)
  have hplus : c ≠ '+' := isDigit_ne hc (by decide)
  unfold splitSign
  split
  · next h => exact absurd (List.cons.inj h).1 hminus
  · next h => exact absurd (List.cons.inj h).1 hplus
  · rfl

theorem Numeral.Proper.splitSign_chars {n : Numeral} (hn : n.Proper) :
    splitSign n.chars = (n.negative, n.whole ++ (n.pointed ++ n.raised)) := by
  unfold Numeral.chars Numeral.sign
  cases n.negative with
  | true => rfl
  | false =>
    obtain ⟨c, cs, hwhole⟩ := List.exists_cons_of_ne_nil hn.whole_ne
    rw [hwhole]
    exact splitSign_digit (hn.whole c (by simp [hwhole])) _

theorem takeWhile_digits {p : Char → Bool} {ds rest : List Char} (hds : ∀ c ∈ ds, p c = true)
    (hrest : ∀ c ∈ rest.head?, p c = false) :
    (ds ++ rest).takeWhile p = ds ∧ (ds ++ rest).dropWhile p = rest := by
  rw [List.takeWhile_append_of_pos hds, List.dropWhile_append_of_pos hds]
  cases rest with
  | nil => simp
  | cons c cs => simp [hrest c (by simp)]

theorem Digits.Proper.positional {d : Digits} (hd : d.Proper) (negative : Bool) :
    ∃ n : Numeral, n.Proper ∧ n.negative = negative ∧ n.power = [] ∧
      d.positional = n.whole ++ n.pointed ∧ n.value = d.value := by
  by_cases hpoint : d.point ≤ 0
  · by_cases hnil : d.digits = []
    · refine ⟨⟨negative, ['0'], [], []⟩, ⟨by simp, by simp, Or.inl rfl, by simp, Or.inl rfl⟩,
        rfl, rfl, ?_, ?_⟩
      · simp [Digits.positional, Numeral.pointed, hnil, hd.zero hnil]
      · simp [Numeral.value, Digits.value, hnil, natOfDigits, digitValue]
    · have htoNat : d.point.toNat = 0 := by omega
      have hlen : d.digits.length ≠ 0 := by simpa using hnil
      refine ⟨⟨negative, ['0'], List.replicate (-d.point).toNat '0' ++ d.digits, []⟩,
        ⟨by simp, by simp, Or.inl rfl, ?_, Or.inl rfl⟩, rfl, rfl, ?_, ?_⟩
      · intro c hc
        rcases List.mem_append.mp hc with hc | hc
        · rw [List.eq_of_mem_replicate hc]
          rfl
        · exact hd.digit c hc
      · unfold Digits.positional Numeral.pointed
        simp [htoNat, hpoint, hnil]
      · unfold Numeral.value Digits.value
        simp only [natOfDigits_append, natOfDigits_zeros, List.length_append, List.length_replicate]
        rw [show natOfDigits ['0'] = 0 from rfl, show readInt [] = 0 from rfl]
        congr 2
        · ring
        · push_cast
          omega
  · by_cases hlen : d.digits.length ≤ d.point.toNat
    · have hnil : d.digits ≠ [] := fun h => hpoint (hd.zero h).le
      refine ⟨⟨negative, d.digits ++ List.replicate (d.point.toNat - d.digits.length) '0', [], []⟩,
        ⟨?_, by simp [hnil], Or.inr ?_, by simp, Or.inl rfl⟩, rfl, rfl, ?_, ?_⟩
      · intro c hc
        rcases List.mem_append.mp hc with hc | hc
        · exact hd.digit c hc
        · rw [List.eq_of_mem_replicate hc]
          rfl
      · rw [List.head?_append_of_ne_nil _ hnil]
        exact hd.head
      · unfold Digits.positional Numeral.pointed
        simp [hpoint, hlen, List.take_of_length_le hlen]
      · unfold Numeral.value Digits.value
        simp only [natOfDigits_append, natOfDigits_zeros, List.length_replicate, List.append_nil]
        rw [show readInt [] = 0 from rfl]
        push_cast
        rw [show d.point - d.digits.length = ((d.point.toNat - d.digits.length : ℕ) : Int) by omega,
          zpow_natCast]
        simp [mul_comm]
    · have hnil : d.digits ≠ [] := by
        rintro h
        simp [h] at hlen
      refine ⟨⟨negative, d.digits.take d.point.toNat, d.digits.drop d.point.toNat, []⟩,
        ⟨fun c hc => hd.digit c (List.mem_of_mem_take hc), ?_, Or.inr ?_,
          fun c hc => hd.digit c (List.mem_of_mem_drop hc), Or.inl rfl⟩, rfl, rfl, ?_, ?_⟩
      · rw [ne_eq, List.take_eq_nil_iff]
        simp [hnil]
        omega
      · rw [List.head?_take]
        simp [show d.point.toNat ≠ 0 by omega, hd.head]
      · have hdrop : d.digits.drop d.point.toNat ≠ [] := by
          rw [ne_eq, List.drop_eq_nil_iff]
          exact hlen
        unfold Digits.positional Numeral.pointed
        simp [hpoint, hlen, hnil, hdrop, show d.point.toNat - d.digits.length = 0 by omega,
          show (-d.point).toNat = 0 by omega]
      · unfold Numeral.value Digits.value
        simp only [List.take_append_drop, List.length_drop]
        rw [show readInt [] = 0 from rfl]
        congr 2
        omega

theorem natOfDigits_zero_cons (cs : List Char) : natOfDigits ('0' :: cs) = natOfDigits cs := rfl

theorem toList_toString_nat (n : Nat) : (toString n).toList = Nat.toDigits 10 n := by
  rw [Nat.toString_eq_ofList_toDigits, String.toList_ofList]

theorem Digits.Proper.scientific {d : Digits} (hd : d.Proper) (hnil : d.digits ≠ [])
    (negative : Bool) :
    ∃ n : Numeral, n.Proper ∧ n.negative = negative ∧ n.power ≠ [] ∧
      d.scientific = n.whole ++ (n.pointed ++ n.raised) ∧ n.value = d.value := by
  obtain ⟨c, cs, hdigits⟩ := List.exists_cons_of_ne_nil hnil
  obtain ⟨padded, hpadded, hne, hdigit, hvalue⟩ : ∃ padded : List Char,
      (let size := (toString (d.point - 1).natAbs).toList
        if size.length < 2 then '0' :: size else size) = padded ∧ padded ≠ [] ∧
      (∀ c ∈ padded, c.isDigit = true) ∧ natOfDigits padded = (d.point - 1).natAbs := by
    have hsize (c : Char) (hc : c ∈ Nat.toDigits 10 (d.point - 1).natAbs) : c.isDigit = true :=
      Nat.isDigit_of_mem_toDigits (by decide) (by decide) hc
    simp only [toList_toString_nat]
    split
    · refine ⟨_, rfl, by simp, ?_, ?_⟩
      · rintro c (_ | ⟨_, hc⟩)
        · rfl
        · exact hsize c hc
      · rw [natOfDigits_zero_cons, natOfDigits_toDigits]
    · exact ⟨_, rfl, Nat.toDigits_ne_nil, hsize, natOfDigits_toDigits _⟩
  have hpower : readInt ((if d.point - 1 < 0 then '-' else '+') :: padded) = d.point - 1 := by
    split
    · change -(natOfDigits padded : Int) = _
      omega
    · change (natOfDigits padded : Int) = _
      omega
  refine ⟨⟨negative, [c], cs, (if d.point - 1 < 0 then '-' else '+') :: padded⟩,
    ⟨?_, by simp, Or.inr ?_, ?_, Or.inr ⟨_, padded, rfl, ?_, hne, hdigit⟩⟩, rfl, by simp, ?_, ?_⟩
  · simpa using hd.digit c (by simp [hdigits])
  · simpa [hdigits] using hd.head
  · exact fun c' hc' => hd.digit c' (by simp [hdigits, hc'])
  · split <;> simp
  · unfold Digits.scientific Numeral.pointed Numeral.raised
    simp only at hpadded
    simp only [hdigits, reduceCtorEq, if_false, hpadded]
    cases cs with
    | nil => rfl
    | cons c' cs => rfl
  · unfold Numeral.value Digits.value
    simp only [hpower, hdigits, List.singleton_append, List.length_cons]
    congr 2
    push_cast
    ring

theorem Numeral.Proper.addPlace {n : Numeral} (hn : n.Proper) (hplaces : n.places = []) :
    ({ n with places := ['0'] } : Numeral).Proper ∧
      ({ n with places := ['0'] } : Numeral).value = n.value := by
  refine ⟨⟨hn.whole, hn.whole_ne, hn.head, by simp, hn.power⟩, ?_⟩
  unfold Numeral.value
  simp only [hplaces, natOfDigits_append, List.append_nil, List.length_nil, List.length_singleton]
  rw [show natOfDigits ['0'] = 0 from rfl, Nat.cast_zero, sub_zero, Nat.cast_one,
    zpow_sub_one₀ (by norm_num)]
  push_cast
  field_simp
  ring

theorem Numeral.Proper.not_mem_whole {n : Numeral} (hn : n.Proper) {c : Char}
    (hc : c.isDigit = false) : c ∉ n.whole :=
  fun hmem => isDigit_ne (hn.whole c hmem) hc rfl

theorem Numeral.Proper.not_mem_e {n : Numeral} (hn : n.Proper) : 'e' ∉ n.whole ++ n.pointed := by
  rw [List.mem_append, not_or]
  refine ⟨hn.not_mem_whole (by decide), ?_⟩
  unfold Numeral.pointed
  split
  · simp
  · rintro (_ | ⟨_, hmem⟩)
    exact isDigit_ne (hn.places _ hmem) (d := 'e') (by decide) rfl

theorem Numeral.Proper.contains_point {n : Numeral} (hn : n.Proper) :
    (n.whole ++ n.pointed).contains '.' = true ↔ n.places ≠ [] := by
  rw [List.contains_iff_mem, List.mem_append, or_iff_right (hn.not_mem_whole (by decide))]
  unfold Numeral.pointed
  split
  · next h => simp [h]
  · next h => simp [h]

theorem Digits.Proper.pointed {d : Digits} (hd : d.Proper) (negative : Bool) :
    ∃ n : Numeral, n.Proper ∧ n.negative = negative ∧ n.power = [] ∧ n.places ≠ [] ∧
      (if d.positional.contains '.' then d.positional else d.positional ++ ['.', '0']) =
        n.whole ++ n.pointed ∧ n.value = d.value := by
  obtain ⟨n, hn, hneg, hpower, htext, hvalue⟩ := hd.positional negative
  rw [htext]
  by_cases hplaces : n.places = []
  · refine ⟨{ n with places := ['0'] }, (hn.addPlace hplaces).1, hneg, hpower, by simp, ?_,
      (hn.addPlace hplaces).2.trans hvalue⟩
    rw [if_neg (by rw [hn.contains_point]; simpa using hplaces)]
    simp [Numeral.pointed, hplaces]
  · exact ⟨n, hn, hneg, hpower, hplaces, by rw [if_pos (hn.contains_point.mpr hplaces)],
      hvalue⟩

theorem Numeral.float_eq {n : Numeral} {f : Float} (hf : f.isFinite = true)
    (hneg : n.negative = signBit f.toBits) (hvalue : n.value = (shortest f).value) :
    n.float = f := by
  have hnearest (g : Float)
      (h : nearest (natOfDigits (n.whole ++ n.places)) (readInt n.power - n.places.length) = g) :
      n.float = if signBit f.toBits then -g else g := by
    rw [← hneg, ← h]
    rfl
  obtain ⟨-, ⟨hzero, hf⟩ | ⟨m, e, hd, hround, hf⟩⟩ := shortest_spec hf
  · have hdigits : natOfDigits (n.whole ++ n.places) = 0 := by
      have hten (k : Int) : (10 : ℚ) ^ k ≠ 0 := zpow_ne_zero k (by norm_num)
      unfold Numeral.value Digits.value at hvalue
      rw [hzero, show natOfDigits [] = 0 from rfl, Nat.cast_zero, zero_mul] at hvalue
      exact_mod_cast (mul_eq_zero.mp hvalue).resolve_right (hten _)
    rw [hdigits] at hnearest
    rw [hnearest (signedZero .positive) rfl]
    cases hs : signBit f.toBits with
    | true => rw [hf, hs]; exact neg_signedZero
    | false => rw [hf, hs]; rfl
  · rw [← hvalue] at hround
    rw [hnearest _ (nearest_eq hd hround)]
    cases hs : signBit f.toBits with
    | true => rw [hf, hs]; exact neg_double hd
    | false => rw [hf, hs]; rfl

theorem signText_eq (f : Float) (n : Numeral) (hneg : n.negative = signBit f.toBits) :
    signText f = n.sign := by
  unfold signText Numeral.sign
  rw [hneg]

theorem isFinite_eq (f : Float) : f.isFinite = (!f.isNaN && !f.isInf) := by
  change UnpackedFloat.isFinite _ = (!UnpackedFloat.isNaN _ && !UnpackedFloat.isInf _)
  generalize Float.Model.unpack _ = u
  cases u <;> rfl

theorem not_isInf_of_isFinite {f : Float} (hf : f.isFinite = true) : f.isInf = false := by
  rw [isFinite_eq, Bool.and_eq_true] at hf
  simpa using hf.2

theorem not_isNaN_of_isFinite {f : Float} (hf : f.isFinite = true) : f.isNaN = false := by
  rw [isFinite_eq, Bool.and_eq_true] at hf
  simpa using hf.1

/-- The positional text of a finite double is a numeral with places that denotes it. -/
theorem plainText_numeral {f : Float} (hf : f.isFinite = true) :
    ∃ n : Numeral, n.Proper ∧ n.power = [] ∧ n.places ≠ [] ∧ (plainText f).toList = n.chars ∧
      n.float = f := by
  obtain ⟨n, hn, hneg, hpower, hplaces, htext, hvalue⟩ :=
    (shortest_spec hf).1.pointed (signBit f.toBits)
  refine ⟨n, hn, hpower, hplaces, ?_, Numeral.float_eq hf hneg hvalue⟩
  unfold plainText
  rw [not_isNaN_of_isFinite hf, not_isInf_of_isFinite hf]
  simp only [Bool.false_eq_true, if_false]
  rw [htext, String.toList_ofList, signText_eq f n hneg]
  simp [Numeral.chars, Numeral.raised, hpower]

/-- The stored text of a finite double is a numeral with places or an exponent that denotes it. -/
theorem compactText_numeral {f : Float} (hf : f.isFinite = true) :
    ∃ n : Numeral, n.Proper ∧ (n.places ≠ [] ∨ n.power ≠ []) ∧ (compactText f).toList = n.chars ∧
      n.float = f := by
  have hd := (shortest_spec hf).1
  unfold compactText
  simp only [String.toList_ofList]
  by_cases hlarge : (let exponent := if (shortest f).digits = [] then -1 else (shortest f).point - 1
      decide (exponent < -4) || decide (6 ≤ exponent)) = true
  · have hnil : (shortest f).digits ≠ [] := by
      intro hnil
      simp [hnil] at hlarge
    obtain ⟨n, hn, hneg, hpower, htext, hvalue⟩ := hd.scientific hnil (signBit f.toBits)
    refine ⟨n, hn, Or.inr hpower, ?_, Numeral.float_eq hf hneg hvalue⟩
    have hmark : (shortest f).scientific.contains 'e' = true := by
      rw [htext, List.contains_iff_mem]
      simp [Numeral.raised, hpower]
    simp only at hlarge
    rw [if_pos hlarge, hmark, Bool.or_true, if_pos rfl, htext, signText_eq f n hneg]
    rfl
  · obtain ⟨n, hn, hneg, hpower, hplaces, htext, hvalue⟩ := hd.pointed (signBit f.toBits)
    refine ⟨n, hn, Or.inl hplaces, ?_, Numeral.float_eq hf hneg hvalue⟩
    have hmark : (shortest f).positional.contains 'e' = false := by
      obtain ⟨n', hn', -, -, htext', -⟩ := hd.positional (signBit f.toBits)
      rw [htext', Bool.eq_false_iff, ne_eq, List.contains_iff_mem]
      exact hn'.not_mem_e
    simp only at hlarge
    rw [if_neg hlarge, hmark, Bool.or_false, htext, signText_eq f n hneg]
    simp [Numeral.chars, Numeral.raised, hpower]

/-- What is written for a finite double is read as that double. -/
theorem readPlain?_plainText {f : Float} (hf : f.isFinite = true) :
    readPlain? (plainText f).toList = some f := by
  obtain ⟨n, hn, hpower, hplaces, htext, hfloat⟩ := plainText_numeral hf
  have hbody : n.whole ++ (n.pointed ++ n.raised) = n.whole ++ '.' :: n.places := by
    simp [Numeral.pointed, Numeral.raised, hpower, hplaces]
  obtain ⟨htake, hdrop⟩ := @takeWhile_digits (· ≠ '.') n.whole ('.' :: n.places)
    (fun c hc => by simpa using isDigit_ne (hn.whole c hc) (by decide)) (by simp)
  have hread : read n.negative n.whole n.places 0 = f := by
    rw [← hfloat]
    unfold Numeral.float
    rw [hpower]
    rfl
  unfold readPlain?
  rw [htext, hn.splitSign_chars, hbody]
  simp only [htake, hdrop, List.drop_one, List.tail_cons, hread, not_isInf_of_isFinite hf]
  rfl

theorem isFinite_of_readPlain? {cs : List Char} {f : Float} (h : readPlain? cs = some f) :
    f.isFinite = true := by
  unfold readPlain? at h
  simp only at h
  split at h
  · cases h
  · next hinf =>
    cases h
    rw [isFinite_eq, isNaN_read]
    simpa using hinf

theorem numeral_ofNat (negative : Bool) (n : Nat) :
    (⟨negative, Nat.toDigits 10 n, [], []⟩ : Numeral).Proper := by
  refine ⟨fun c hc => Nat.isDigit_of_mem_toDigits (by decide) (by decide) hc, Nat.toDigits_ne_nil,
    ?_, by simp, Or.inl rfl⟩
  by_cases hn : n = 0
  · exact Or.inl (by rw [hn, Nat.toDigits_zero])
  · exact Or.inr (head_toDigits hn)

theorem toString_numeral (i : Int) :
    ∃ n : Numeral, n.Proper ∧ n.places = [] ∧ n.power = [] ∧ (toString i).toList = n.chars ∧
      readInt n.chars = i := by
  have hchars (negative : Bool) (k : Nat) : (⟨negative, Nat.toDigits 10 k, [], []⟩ : Numeral).chars =
      (if negative then ['-'] else []) ++ Nat.toDigits 10 k := by
    simp [Numeral.chars, Numeral.sign, Numeral.pointed, Numeral.raised]
  have hread (negative : Bool) (k : Nat) :
      readInt (⟨negative, Nat.toDigits 10 k, [], []⟩ : Numeral).chars =
        if negative then -(k : Int) else k := by
    unfold readInt
    rw [(numeral_ofNat negative k).splitSign_chars]
    simp [Numeral.pointed, Numeral.raised, natOfDigits_toDigits]
  cases i with
  | ofNat k =>
    refine ⟨⟨false, Nat.toDigits 10 k, [], []⟩, numeral_ofNat _ _, rfl, rfl, ?_, hread false k⟩
    rw [hchars]
    exact toList_toString_nat k
  | negSucc k =>
    refine ⟨⟨true, Nat.toDigits 10 (k + 1), [], []⟩, numeral_ofNat _ _, rfl, rfl, ?_, ?_⟩
    · rw [hchars]
      change (toString (-((k + 1 : ℕ) : Int))).toList = _
      rw [Int.toString_eq_repr, Int.repr_eq_if, if_neg (by omega)]
      simp
    · rw [hread]
      rfl

theorem readInt64?_toString (i : Int64) : readInt64? (toString i.toInt).toList = some i := by
  obtain ⟨n, -, -, -, htext, hread⟩ := toString_numeral i.toInt
  have hlow : int64Min ≤ i.toInt := i.le_toInt
  have hhigh : i.toInt ≤ int64Max := i.toInt_le
  unfold readInt64?
  simp only [htext, hread, decide_eq_true hlow, decide_eq_true hhigh, Bool.and_self, if_true,
    Int64.ofInt_toInt]

end EventTally.Decimal
