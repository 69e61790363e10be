import EventTally.Proofs.Json.Complete

/-! # Reading written JSON

The text of a value whose numbers are numerals spells the value (`Proper.spells`). So the value is read
back from its text unless it is nested deeper than the reader goes (`readFirst_write`).
-/

namespace EventTally.Json

open Decimal (Numeral)

mutual

theorem depth_le_length (j : Json) : j.depth ≤ j.write.length := by
  match j with
  | .null | .bool _ | .num _ | .str _ => exact Nat.zero_le _
  | .arr [] | .obj [] => exact Nat.le_succ 1
  | .arr (j :: js) =>
    have hj := depth_le_length j
    have hjs := depthAll_le_length js
    simp only [depth, depthAll, write, List.length_append, List.length_cons]
    omega
  | .obj ((name, j) :: fields) =>
    have hj := depth_le_length j
    have hfields := depthFields_le_length fields
    simp only [depth, depthFields, write, List.length_append, List.length_cons]
    omega

theorem depthAll_le_length (js : List Json) : depthAll js ≤ (writeElems js).length := by
  match js with
  | [] => exact Nat.zero_le _
  | j :: js =>
    have hj := depth_le_length j
    have hjs := depthAll_le_length js
    simp only [depthAll, writeElems, List.length_append, List.length_cons]
    omega

theorem depthFields_le_length (fields : List (String × Json)) :
    depthFields fields ≤ (writeFields fields).length := by
  match fields with
  | [] => exact Nat.zero_le _
  | (name, j) :: fields =>
    have hj := depth_le_length j
    have hfields := depthFields_le_length fields
    simp only [depthFields, writeFields, List.length_append, List.length_cons]
    omega

end

/-- The numbers in a value are numerals. -/
inductive Proper : Json → Prop
  | null : Proper .null
  | bool (b : Bool) : Proper (.bool b)
  | num {text : String} (n : Numeral) (hn : n.Proper) (htext : text.toList = n.chars) :
      Proper (.num text)
  | str (s : String) : Proper (.str s)
  | arr {js : List Json} (h : ∀ j ∈ js, Proper j) : Proper (.arr js)
  | obj {fields : List (String × Json)} (h : ∀ f ∈ fields, Proper f.2) : Proper (.obj fields)

theorem hexValue?_hexDigit (n : Nat) : hexValue? (Text.hexDigit n) = some (n % 16) := by
  have hall : ∀ d < 16, hexValue? (Nat.digitChar d) = some d := by decide
  exact hall (n % 16) (Nat.mod_lt n (by decide))

theorem unit?_hexDigits {n : Nat} (hn : n < 65536) :
    ∃ a b c d, Text.hexDigits 4 n = [a, b, c, d] ∧ unit? a b c d = some n := by
  refine ⟨_, _, _, _, rfl, ?_⟩
  unfold unit?
  simp only [hexValue?_hexDigit, Option.bind_eq_bind, Option.bind_some, Option.pure_def,
    Option.some.injEq, Nat.pow_eq]
  omega

theorem spellsUnits_writeChar (c : Char) {ns : List Nat} {cs : List Char} (h : SpellsUnits ns cs) :
    SpellsUnits (c.toNat :: ns) (writeChar c ++ cs) := by
  have hshort {e : Char} (he : shortEscape? e = some c) : SpellsUnits (c.toNat :: ns) ('\\' :: e :: cs) :=
    .escape he h
  have hofNat {n : Nat} (h : c.toNat = n) : Char.ofNat n = c := by rw [← h, Char.ofNat_toNat]
  unfold writeChar
  dsimp only
  split
  · next hc => exact hshort (e := '"') (by rw [hc]; rfl)
  split
  · next hc => exact hshort (e := '\\') (by rw [hc]; rfl)
  split
  · next hc => exact hshort (e := 'b') (by rw [← hofNat hc]; rfl)
  split
  · next hc => exact hshort (e := 'f') (by rw [← hofNat hc]; rfl)
  split
  · next hc => exact hshort (e := 'n') (by rw [← hofNat hc]; rfl)
  split
  · next hc => exact hshort (e := 'r') (by rw [← hofNat hc]; rfl)
  split
  · next hc => exact hshort (e := 't') (by rw [← hofNat hc]; rfl)
  split
  · next hc =>
    have hlt : c.toNat < 65536 := by
      simp only [Bool.or_eq_true, decide_eq_true_eq] at hc
      rcases hc with ((((hc | rfl) | rfl) | rfl) | hc) | hc
      all_goals first | omega | decide
    obtain ⟨a, b, d, e, hdigits, hunit⟩ := unit?_hexDigits hlt
    rw [hdigits]
    exact .unit hunit h
  · next hquote hback _ _ _ _ _ hplain =>
    have hlow : ¬ c.toNat < 32 := fun h => hplain (by simp [h])
    exact .plain hquote hback (Nat.not_lt.mp hlow) h

theorem spellsUnits_flatMap (cs : List Char) : SpellsUnits (cs.map Char.toNat) (cs.flatMap writeChar) := by
  induction cs with
  | nil => exact .nil
  | cons c cs ih => exact spellsUnits_writeChar c ih

theorem not_surrogate (c : Char) :
    isHighSurrogate c.toNat = false ∧ isLowSurrogate c.toNat = false := by
  have hvalid : c.toNat < 0xD800 ∨ 0xDFFF < c.toNat := by
    rcases c.valid with h | h
    · exact Or.inl h
    · exact Or.inr h.1
  unfold isHighSurrogate isLowSurrogate
  constructor
  · simp only [Bool.and_eq_false_iff, decide_eq_false_iff_not]
    omega
  · simp only [Bool.and_eq_false_iff, decide_eq_false_iff_not]
    omega

theorem unitChar_toNat (c : Char) : unitChar c.toNat = c := by
  unfold unitChar
  rw [(not_surrogate c).1, (not_surrogate c).2]
  exact Char.ofNat_toNat c

theorem joinUnits_map (cs : List Char) : joinUnits (cs.map Char.toNat) = cs := by
  induction cs with
  | nil => rfl
  | cons c cs ih =>
    cases cs with
    | nil => simp [joinUnits, unitChar_toNat]
    | cons d cs =>
      rw [List.map_cons, List.map_cons, joinUnits, (not_surrogate c).1, Bool.false_and,
        if_neg (by decide), unitChar_toNat, ← List.map_cons, ih]

theorem spells_writeString (s : String) : SpellsString s (writeString s) := by
  have h := SpellsString.quoted (spellsUnits_flatMap s.toList)
  rwa [joinUnits_map, String.ofList_toList] at h

theorem spells_numeral {n : Numeral} (hn : n.Proper) : SpellsNumber n.chars := by
  refine ⟨n.sign, n.whole, n.pointed, n.raised, ?_, ?sign, ⟨⟨hn.whole_ne, hn.whole⟩, hn.head⟩, ?places,
    ?power⟩
  · rw [Numeral.chars, List.append_assoc, List.append_assoc]
  case sign =>
    unfold Numeral.sign
    cases n.negative with
    | true => exact .inr rfl
    | false => exact .inl rfl
  case places =>
    unfold Numeral.pointed
    split
    · exact .inl rfl
    · next hplaces => exact .inr ⟨n.places, rfl, hplaces, hn.places⟩
  case power =>
    unfold Numeral.raised
    obtain hpower | ⟨mark, digits, hpower, hmark, hne, hdigits⟩ := hn.power
    · rw [if_pos hpower]
      exact .inl rfl
    · rw [if_neg (by rw [hpower]; exact List.cons_ne_nil mark digits), hpower]
      refine .inr ⟨'e', [mark], digits, rfl, .inl rfl, .inr ?_, hne, hdigits⟩
      rcases hmark with rfl | rfl
      · exact .inl rfl
      · exact .inr rfl

theorem gap_nil : Gap [] := List.forall_mem_nil _

theorem spells_writeElems {js : List Json} (h : ∀ j ∈ js, Spells j j.write) :
    SpellsElems js (writeElems js) := by
  induction js with
  | nil =>
    rw [writeElems]
    exact .nil
  | cons j js ih =>
    obtain ⟨hj, hjs⟩ := List.forall_mem_cons.mp h
    have htext := SpellsElems.cons gap_nil hj gap_nil (ih hjs)
    rw [List.append_nil, List.singleton_append] at htext
    rwa [writeElems]

theorem spells_writeField (name : String) {j : Json} (h : Spells j j.write) :
    SpellsField (name, j) (writeString name ++ ':' :: j.write) := by
  have htext := SpellsField.field (spells_writeString name) gap_nil gap_nil h
  rwa [List.append_nil, List.append_assoc, List.singleton_append] at htext

theorem spells_writeFields {fields : List (String × Json)} (h : ∀ f ∈ fields, Spells f.2 f.2.write) :
    SpellsFields fields (writeFields fields) := by
  induction fields with
  | nil =>
    rw [writeFields]
    exact .nil
  | cons f fields ih =>
    obtain ⟨name, j⟩ := f
    obtain ⟨hj, hfields⟩ := List.forall_mem_cons.mp h
    have htext := SpellsFields.cons gap_nil (spells_writeField name hj) gap_nil (ih hfields)
    rw [writeFields]
    simpa using htext

/-- What is written spells the value. -/
theorem Proper.spells {j : Json} (hj : j.Proper) : Spells j j.write := by
  induction hj with
  | null =>
    rw [write]
    exact .null
  | bool b =>
    cases b with
    | true =>
      rw [write]
      exact .boolTrue
    | false =>
      rw [write]
      exact .boolFalse
  | @num text n hn htext =>
    have hspells := Spells.num (spells_numeral hn)
    rw [← htext, String.ofList_toList] at hspells
    rwa [write]
  | str s =>
    rw [write]
    exact .str (spells_writeString s)
  | @arr js _ ih =>
    cases js with
    | nil =>
      rw [write]
      exact .noElems gap_nil
    | cons j js =>
      obtain ⟨hj, hjs⟩ := List.forall_mem_cons.mp ih
      have htext := Spells.arr gap_nil hj gap_nil (spells_writeElems hjs)
      rw [List.append_nil, List.singleton_append] at htext
      rwa [write]
  | @obj fields _ ih =>
    cases fields with
    | nil =>
      rw [write]
      exact .noFields gap_nil
    | cons f fields =>
      obtain ⟨name, j⟩ := f
      obtain ⟨hj, hfields⟩ := List.forall_mem_cons.mp ih
      have htext := Spells.obj gap_nil (spells_writeField name hj) gap_nil (spells_writeFields hfields)
      rw [write]
      simpa using htext

/-- What follows a value: nothing, a comma or a closing bracket. -/
def Ends (rest : List Char) : Prop := ∀ c ∈ rest.head?, c = ',' ∨ c = ']' ∨ c = '\x7d'

theorem ends_nil : Ends [] := by
  intro c hc
  cases hc

theorem Ends.stops {rest : List Char} (h : Ends rest) : Stops rest := by
  intro c hc
  rcases h c hc with rfl | rfl | rfl <;> decide

/-- A value that the reader reads back with any fuel that its text asks for. -/
def ReadsBack (j : Json) : Prop :=
  ∀ {depth fuel : Nat} {rest : List Char}, j.depth ≤ depth → j.write.length ≤ fuel → Ends rest →
    readValue fuel depth (j.write ++ rest) = some (j, rest)

theorem Proper.readsBack {j : Json} (hj : j.Proper) : ReadsBack j :=
  fun hdepth hfuel hrest => readValue_of_spells hj.spells hdepth hfuel fun _ _ => hrest.stops

/-- A value is read back from its text unless it is nested too deep. -/
theorem readFirst_write {j : Json} (hj : j.Proper) (hdepth : j.depth ≤ maxDepth) :
    readFirst j.write = some (j, []) := by
  have hskip := hj.spells.skipSpace []
  have hread := @Proper.readsBack j hj maxDepth (2 * j.write.length + 2) [] hdepth (by omega) ends_nil
  rw [List.append_nil] at hskip hread
  rw [readFirst, hskip, hread]

end EventTally.Json
