import EventTally.Proofs.Decimal.Numeral
import EventTally.Proofs.Json.Grammar

/-! # The reader reads the grammar

Every text that is a value is read as that value, whatever follows it, unless it is nested deeper than
the reader goes (`readFirst_of_spells`). A number is an exception: it goes on as long as it can, so that
what follows it must not continue it (`Stops`).
-/

namespace EventTally.Json

/-- What follows does not continue a number. -/
def Stops (rest : List Char) : Prop :=
  ∀ c ∈ rest.head?, isDigit c = false ∧ c ≠ '.' ∧ c ≠ 'e' ∧ c ≠ 'E'

theorem stops_cons {c : Char} (hc : isDigit c = false ∧ c ≠ '.' ∧ c ≠ 'e' ∧ c ≠ 'E') (rest : List Char) :
    Stops (c :: rest) := by
  rintro d ⟨⟩
  exact hc

theorem Gap.stops {gap rest : List Char} (hgap : Gap gap) (hrest : Stops rest) : Stops (gap ++ rest) := by
  cases gap with
  | nil => exact hrest
  | cons c gap =>
    refine stops_cons ?_ _
    have hc := hgap c List.mem_cons_self
    unfold isSpace at hc
    simp only [Bool.or_eq_true, decide_eq_true_eq] at hc
    rcases hc with ((rfl | rfl) | rfl) | rfl <;> decide

theorem skipSpace_cons {c : Char} (hc : isSpace c = false) (cs : List Char) :
    skipSpace (c :: cs) = c :: cs := by
  unfold skipSpace
  rw [List.dropWhile_cons, hc]
  rfl

theorem Gap.skipSpace {gap rest : List Char} (hgap : Gap gap) (hrest : skipSpace rest = rest) :
    skipSpace (gap ++ rest) = rest := by
  unfold Json.skipSpace
  rw [List.dropWhile_append_of_pos hgap]
  exact hrest

theorem Digits.split {digits rest : List Char} (h : Digits digits)
    (hrest : ∀ c ∈ rest.head?, isDigit c = false) :
    ∃ d ds, digits = d :: ds ∧ (digits ++ rest).takeWhile isDigit = d :: ds ∧
      (digits ++ rest).dropWhile isDigit = rest := by
  obtain ⟨d, ds, rfl⟩ := List.exists_cons_of_ne_nil h.ne_nil
  exact ⟨d, ds, rfl, Decimal.takeWhile_digits h.digit hrest⟩

theorem readPower_digits {digits rest : List Char} (h : Digits digits)
    (hrest : ∀ c ∈ rest.head?, isDigit c = false) (mark : List Char) :
    readPower mark (digits ++ rest) = some (mark ++ digits, rest) := by
  obtain ⟨d, ds, heq, htake, hdrop⟩ := h.split hrest
  unfold readPower
  rw [htake, hdrop, heq]

theorem readExponent_of_spells {power rest : List Char} (h : SpellsPower power) (hrest : Stops rest) :
    readExponent (power ++ rest) = some (power, rest) := by
  obtain rfl | ⟨mark, sign, digits, rfl, hmark, hsign, hdigits⟩ := h
  · cases rest with
    | nil => rfl
    | cons c rest =>
      obtain ⟨-, -, he, hE⟩ := hrest c rfl
      simp [readExponent, he, hE]
  · have hdigit : ∀ c ∈ rest.head?, isDigit c = false := fun c hc => (hrest c hc).1
    have hpower := readPower_digits hdigits hdigit (mark :: sign)
    have hmark' : (decide (mark = 'e') || decide (mark = 'E')) = true := by simpa using hmark
    rw [List.cons_append, List.append_assoc]
    rcases hsign with rfl | rfl | rfl
    · obtain ⟨d, ds, rfl⟩ := List.exists_cons_of_ne_nil hdigits.ne_nil
      have hd (c : Char) (hc : isDigit c = false) : d ≠ c := by
        rintro rfl
        rw [hdigits.digit d List.mem_cons_self] at hc
        cases hc
      rw [List.nil_append, readExponent, if_pos hmark']
      · exact hpower
      · exact fun _ h => hd '+' rfl (List.cons.inj h).1
      · exact fun _ h => hd '-' rfl (List.cons.inj h).1
    · rw [List.singleton_append, readExponent, if_pos hmark']
      exact hpower
    · rw [List.singleton_append, readExponent, if_pos hmark']
      exact hpower

theorem readPlaces_of_spells {places rest : List Char} (h : SpellsPlaces places)
    (hrest : ∀ c ∈ rest.head?, isDigit c = false ∧ c ≠ '.') :
    readPlaces (places ++ rest) = some (places, rest) := by
  obtain rfl | ⟨digits, rfl, hdigits⟩ := h
  · unfold readPlaces
    split
    · next heq =>
      rw [List.nil_append] at heq
      exact absurd rfl (hrest '.' (by rw [heq]; rfl)).2
    · rfl
  · obtain ⟨d, ds, heq, htake, hdrop⟩ := hdigits.split fun c hc => (hrest c hc).1
    rw [List.cons_append, readPlaces, htake, hdrop, heq]

theorem readWhole_of_spells {whole rest : List Char} (h : Whole whole)
    (hrest : ∀ c ∈ rest.head?, isDigit c = false) : readWhole (whole ++ rest) = some (whole, rest) := by
  rcases h.leading with rfl | hhead
  · rfl
  · obtain ⟨d, ds, heq, htake, hdrop⟩ := h.toDigits.split hrest
    unfold readWhole
    split
    · next hzero =>
      rw [heq] at hzero hhead
      exact absurd (congrArg some (List.cons.inj hzero).1) hhead
    · rw [htake, hdrop, heq]

theorem SpellsPower.head {power rest : List Char} (h : SpellsPower power) (hrest : Stops rest) :
    ∀ c ∈ (power ++ rest).head?, isDigit c = false ∧ c ≠ '.' := by
  obtain rfl | ⟨mark, sign, digits, rfl, hmark, -, -⟩ := h
  · exact fun c hc => ⟨(hrest c hc).1, (hrest c hc).2.1⟩
  · rintro c ⟨⟩
    rcases hmark with rfl | rfl <;> decide

theorem SpellsPlaces.head {places rest : List Char} (h : SpellsPlaces places)
    (hrest : ∀ c ∈ rest.head?, isDigit c = false) :
    ∀ c ∈ (places ++ rest).head?, isDigit c = false := by
  obtain rfl | ⟨digits, rfl, -⟩ := h
  · exact hrest
  · rintro c ⟨⟩
    rfl

theorem readNumber_of_spells {cs rest : List Char} (h : SpellsNumber cs) (hrest : Stops rest) :
    readNumber (cs ++ rest) = some (cs, rest) := by
  obtain ⟨sign, whole, places, power, rfl, hsign, hwhole, hplaces, hpower⟩ := h
  have htext : sign ++ whole ++ places ++ power ++ rest =
      sign ++ (whole ++ (places ++ (power ++ rest))) := by simp
  have hhead := hpower.head hrest
  unfold readNumber
  rw [htext]
  split
  next sign' cs hsplit =>
  have hparts : sign' = sign ∧ cs = whole ++ (places ++ (power ++ rest)) := by
    rcases hsign with rfl | rfl
    · obtain ⟨d, ds, rfl⟩ := List.exists_cons_of_ne_nil hwhole.ne_nil
      have hminus : d ≠ '-' := by
        rintro rfl
        exact absurd (hwhole.digit '-' List.mem_cons_self) (by decide)
      split at hsplit
      · next heq => exact absurd (List.cons.inj heq).1 hminus
      · cases hsplit
        exact ⟨rfl, rfl⟩
    · cases hsplit
      exact ⟨rfl, rfl⟩
  obtain ⟨rfl, rfl⟩ := hparts
  have hread := readWhole_of_spells hwhole (hplaces.head fun c hc => (hhead c hc).1)
  simp only [hread, readPlaces_of_spells hplaces hhead, readExponent_of_spells hpower hrest,
    Option.bind_eq_bind, Option.bind_some, Option.pure_def]

theorem readUnits_escape {c e : Char} (h : shortEscape? e = some c) (hu : e ≠ 'u')
    (rest : List Char) :
    readUnits ('\\' :: e :: rest) = (readUnits rest).map fun p => (c.toNat :: p.1, p.2) := by
  rw [readUnits]
  · rw [h]
  · simp_all

theorem readUnits_of_spells {ns : List Nat} {inside : List Char} (h : SpellsUnits ns inside)
    (rest : List Char) : readUnits (inside ++ '"' :: rest) = some (ns, rest) := by
  induction h with
  | nil => rw [List.nil_append, readUnits]
  | @plain c ns cs hquote hslash hcontrol h ih =>
    rw [List.cons_append, readUnits]
    · simp [Nat.not_lt.mpr hcontrol, hslash, ih]
    · exact hquote
    · exact fun _ _ _ _ _ h _ => hslash h
    · exact fun _ _ h _ => hslash h
  | @escape c e ns cs hc h ih =>
    rw [List.cons_append, List.cons_append, readUnits_escape hc (by rintro rfl; cases hc), ih]
    rfl
  | @unit a b c d n ns cs hn h ih =>
    simp only [List.cons_append]
    rw [readUnits, hn, ih]
    rfl

theorem readChars_of_spells {s : String} {taken : List Char} (h : SpellsString s taken) (rest : List Char) :
    ∃ inside chars, taken ++ rest = '"' :: inside ∧ readChars inside = some (chars, rest) ∧
      s = String.ofList chars := by
  obtain @⟨ns, inside, hinside⟩ := h
  refine ⟨inside ++ '"' :: rest, joinUnits ns, by simp, ?_, rfl⟩
  unfold readChars
  rw [readUnits_of_spells hinside]
  rfl

theorem SpellsString.head {s : String} {cs : List Char} (h : SpellsString s cs) :
    ∃ rest, cs = '"' :: rest := by
  obtain ⟨hinside⟩ := h
  exact ⟨_, rfl⟩

theorem readWord_append (ws rest : List Char) : readWord ws (ws ++ rest) = some rest := by
  induction ws with
  | nil => rfl
  | cons w ws ih => rw [List.cons_append, readWord, if_pos rfl, ih]

theorem SpellsNumber.head {cs : List Char} (h : SpellsNumber cs) :
    ∃ c rest, cs = c :: rest ∧ (c = '-' ∨ isDigit c = true) := by
  obtain ⟨sign, whole, places, power, rfl, rfl | rfl, hwhole, -, -⟩ := h
  · obtain ⟨d, ds, rfl⟩ := List.exists_cons_of_ne_nil hwhole.ne_nil
    exact ⟨d, _, rfl, .inr (hwhole.digit d List.mem_cons_self)⟩
  · exact ⟨'-', _, rfl, .inl rfl⟩

theorem SpellsNumber.head_ne {c : Char} (hc : c = '-' ∨ isDigit c = true) {d : Char}
    (hd : d ≠ '-' ∧ isDigit d = false) : c ≠ d := by
  rintro rfl
  rcases hc with rfl | hc
  · exact hd.1 rfl
  · rw [hd.2] at hc
    cases hc

theorem Spells.head {j : Json} {cs : List Char} (h : Spells j cs) :
    ∃ c rest, cs = c :: rest ∧ isSpace c = false ∧ c ≠ ']' ∧ c ≠ '\x7d' := by
  cases h with
  | null | boolTrue | boolFalse | noElems | arr | noFields | obj => exact ⟨_, _, rfl, by decide⟩
  | str h =>
    obtain ⟨rest, rfl⟩ := h.head
    exact ⟨_, _, rfl, by decide⟩
  | num h =>
    obtain ⟨c, rest, rfl, hc⟩ := h.head
    have hne (d : Char) (hd : d ≠ '-' ∧ isDigit d = false) : decide (c = d) = false :=
      decide_eq_false (SpellsNumber.head_ne hc hd)
    refine ⟨c, rest, rfl, ?_, SpellsNumber.head_ne hc (by decide), SpellsNumber.head_ne hc (by decide)⟩
    unfold isSpace
    rw [hne ' ' (by decide), hne '\t' (by decide), hne '\n' (by decide), hne '\r' (by decide)]
    rfl

theorem Spells.skipSpace {j : Json} {cs : List Char} (h : Spells j cs) (rest : List Char) :
    skipSpace (cs ++ rest) = cs ++ rest := by
  obtain ⟨c, cs, rfl, hc, -⟩ := h.head
  exact skipSpace_cons hc _

theorem SpellsElems.head {js : List Json} {cs : List Char} (h : SpellsElems js cs) (rest : List Char) :
    Stops (cs ++ rest) ∧ skipSpace (cs ++ rest) = cs ++ rest := by
  cases h <;> exact ⟨stops_cons (by decide) _, skipSpace_cons (by decide) _⟩

theorem SpellsFields.head {fs : List (String × Json)} {cs : List Char} (h : SpellsFields fs cs)
    (rest : List Char) : Stops (cs ++ rest) ∧ skipSpace (cs ++ rest) = cs ++ rest := by
  cases h <;> exact ⟨stops_cons (by decide) _, skipSpace_cons (by decide) _⟩

theorem SpellsField.head {f : String × Json} {cs : List Char} (h : SpellsField f cs) :
    ∃ rest, cs = '"' :: rest := by
  cases h with
  | field hname =>
    obtain ⟨rest, rfl⟩ := hname.head
    exact ⟨_, rfl⟩

theorem SpellsField.skipSpace {f : String × Json} {cs : List Char} (h : SpellsField f cs)
    (rest : List Char) : Json.skipSpace (cs ++ rest) = cs ++ rest := by
  obtain ⟨cs, rfl⟩ := h.head
  exact skipSpace_cons (by decide) _

theorem depthFields_cons (f : String × Json) (fs : List (String × Json)) :
    depthFields (f :: fs) = max f.2.depth (depthFields fs) := rfl

theorem exists_fuel {cs : List Char} {fuel : Nat} (h : cs.length ≤ fuel) {c : Char} {rest : List Char}
    (hcs : cs = c :: rest) : ∃ k, fuel = k + 1 := by
  rw [hcs, List.length_cons] at h
  exact ⟨fuel - 1, by omega⟩

theorem exists_depth {n depth : Nat} (h : n + 1 ≤ depth) : ∃ k, depth = k + 1 ∧ n ≤ k :=
  ⟨depth - 1, by omega, by omega⟩

theorem readValue_number {c : Char} (hc : c = '-' ∨ isDigit c = true) (fuel depth : Nat) (cs : List Char) :
    readValue (fuel + 1) depth (c :: cs) =
      (readNumber (c :: cs)).map fun (digits, r) => (.num (String.ofList digits), r) := by
  have hne (d : Char) (hd : d ≠ '-' ∧ isDigit d = false) : ∀ ds, c :: cs ≠ d :: ds :=
    fun _ h => SpellsNumber.head_ne hc hd (List.cons.inj h).1
  rw [readValue]
  · exact List.cons_ne_nil _ _
  · exact hne 'n' (by decide)
  · exact hne 't' (by decide)
  · exact hne 'f' (by decide)
  · exact hne '"' (by decide)
  · exact hne '[' (by decide)
  · exact hne '\x7b' (by decide)

theorem readValue_elems {fuel depth : Nat} {cs text rest₁ rest : List Char} {j : Json} {js : List Json}
    (hskip : skipSpace text = cs) (hclose : cs.head? ≠ some ']')
    (hj : readValue fuel depth cs = some (j, rest₁))
    (hjs : readElems fuel depth (skipSpace rest₁) = some (js, rest)) :
    readValue (fuel + 1) (depth + 1) ('[' :: text) = some (.arr (j :: js), rest) := by
  rw [readValue.eq_def]
  simp only [hskip]
  split
  · next h => cases h
  · exact absurd rfl hclose
  · next heq _ =>
    cases heq
    simp only [hj, hjs, Option.bind_eq_bind, Option.bind_some, Option.pure_def]

theorem readValue_fields {fuel depth : Nat} {cs text rest₁ rest : List Char} {f : String × Json}
    {fs : List (String × Json)} (hskip : skipSpace text = cs) (hclose : cs.head? ≠ some '\x7d')
    (hf : readField fuel depth cs = some (f, rest₁))
    (hfs : readFields fuel depth (skipSpace rest₁) = some (fs, rest)) :
    readValue (fuel + 1) (depth + 1) ('\x7b' :: text) = some (.obj (f :: fs), rest) := by
  rw [readValue.eq_def]
  simp only [hskip]
  split
  · next h => cases h
  · exact absurd rfl hclose
  · next heq _ =>
    cases heq
    simp only [hf, hfs, Option.bind_eq_bind, Option.bind_some, Option.pure_def]

mutual

theorem readValue_of_spells {j : Json} {cs : List Char} (h : Spells j cs) {depth fuel : Nat}
    {rest : List Char} (hdepth : j.depth ≤ depth) (hfuel : cs.length ≤ fuel)
    (hrest : ∀ text, j = .num text → Stops rest) :
    readValue fuel depth (cs ++ rest) = some (j, rest) := by
  match h with
  | .null | .boolTrue | .boolFalse =>
    obtain ⟨fuel, rfl⟩ := exists_fuel hfuel rfl
    rw [List.cons_append, readValue, readWord_append]
    rfl
  | .num h =>
    obtain ⟨c, cs, rfl, hc⟩ := h.head
    obtain ⟨fuel, rfl⟩ := exists_fuel hfuel rfl
    have hnumber := readNumber_of_spells h (hrest _ rfl)
    rw [List.cons_append] at hnumber ⊢
    rw [readValue_number hc, hnumber]
    rfl
  | .str h =>
    obtain ⟨_, heq⟩ := h.head
    obtain ⟨fuel, rfl⟩ := exists_fuel hfuel heq
    obtain ⟨inside, chars, htext, hread, rfl⟩ := readChars_of_spells h rest
    rw [htext, readValue, hread]
    rfl
  | @Spells.noElems gap hgap =>
    obtain ⟨fuel, rfl⟩ := exists_fuel hfuel rfl
    obtain ⟨depth, rfl, -⟩ := exists_depth hdepth
    have hskip : skipSpace (gap ++ ']' :: rest) = ']' :: rest :=
      hgap.skipSpace (skipSpace_cons (by decide) _)
    rw [List.cons_append, List.cons_append, List.append_assoc, List.singleton_append, readValue.eq_def]
    simp only [hskip]
  | @Spells.arr j js gap cs gap' cs' hgap hj hgap' hjs =>
    obtain ⟨fuel, rfl⟩ := exists_fuel hfuel rfl
    obtain ⟨depth, rfl, hnested⟩ := exists_depth hdepth
    rw [depthAll, Nat.max_le] at hnested
    simp only [List.length_append, List.length_cons] at hfuel
    have hvalue : readValue fuel depth (cs ++ (gap' ++ (cs' ++ rest))) = some (j, gap' ++ (cs' ++ rest)) :=
      readValue_of_spells hj hnested.1 (by omega) fun _ _ => hgap'.stops (hjs.head rest).1
    have helems : readElems fuel depth (cs' ++ rest) = some (js, rest) :=
      readElems_of_spells hjs hnested.2 (by omega)
    have hskip : skipSpace (gap ++ (cs ++ (gap' ++ (cs' ++ rest)))) = cs ++ (gap' ++ (cs' ++ rest)) :=
      hgap.skipSpace (hj.skipSpace _)
    have hclose : (cs ++ (gap' ++ (cs' ++ rest))).head? ≠ some ']' := by
      obtain ⟨c, _, rfl, -, hc, -⟩ := hj.head
      exact fun h => hc (Option.some.inj h)
    simp only [List.cons_append, List.append_assoc]
    refine readValue_elems hskip hclose hvalue ?_
    rwa [hgap'.skipSpace (hjs.head rest).2]
  | @Spells.noFields gap hgap =>
    obtain ⟨fuel, rfl⟩ := exists_fuel hfuel rfl
    obtain ⟨depth, rfl, -⟩ := exists_depth hdepth
    have hskip : skipSpace (gap ++ '\x7d' :: rest) = '\x7d' :: rest :=
      hgap.skipSpace (skipSpace_cons (by decide) _)
    rw [List.cons_append, List.cons_append, List.append_assoc, List.singleton_append, readValue.eq_def]
    simp only [hskip]
  | @Spells.obj f fs gap cs gap' cs' hgap hf hgap' hfs =>
    obtain ⟨fuel, rfl⟩ := exists_fuel hfuel rfl
    obtain ⟨depth, rfl, hnested⟩ := exists_depth hdepth
    rw [depthFields_cons, Nat.max_le] at hnested
    simp only [List.length_append, List.length_cons] at hfuel
    have hfield : readField fuel depth (cs ++ (gap' ++ (cs' ++ rest))) = some (f, gap' ++ (cs' ++ rest)) :=
      readField_of_spells hf hnested.1 (by omega) (hgap'.stops (hfs.head rest).1)
    have hfields : readFields fuel depth (cs' ++ rest) = some (fs, rest) :=
      readFields_of_spells hfs hnested.2 (by omega)
    have hskip : skipSpace (gap ++ (cs ++ (gap' ++ (cs' ++ rest)))) = cs ++ (gap' ++ (cs' ++ rest)) :=
      hgap.skipSpace (hf.skipSpace _)
    have hclose : (cs ++ (gap' ++ (cs' ++ rest))).head? ≠ some '\x7d' := by
      obtain ⟨_, rfl⟩ := hf.head
      nofun
    simp only [List.cons_append, List.append_assoc]
    refine readValue_fields hskip hclose hfield ?_
    rwa [hgap'.skipSpace (hfs.head rest).2]

theorem readElems_of_spells {js : List Json} {cs : List Char} (h : SpellsElems js cs) {depth fuel : Nat}
    {rest : List Char} (hdepth : depthAll js ≤ depth) (hfuel : cs.length ≤ fuel) :
    readElems fuel depth (cs ++ rest) = some (js, rest) := by
  match h with
  | .nil =>
    obtain ⟨fuel, rfl⟩ := exists_fuel hfuel rfl
    rw [List.singleton_append, readElems]
  | @SpellsElems.cons j js gap cs gap' cs' hgap hj hgap' hjs =>
    obtain ⟨fuel, rfl⟩ := exists_fuel hfuel rfl
    rw [depthAll, Nat.max_le] at hdepth
    simp only [List.length_append, List.length_cons] at hfuel
    have hvalue : readValue fuel depth (cs ++ (gap' ++ (cs' ++ rest))) = some (j, gap' ++ (cs' ++ rest)) :=
      readValue_of_spells hj hdepth.1 (by omega) fun _ _ => hgap'.stops (hjs.head rest).1
    have helems : readElems fuel depth (cs' ++ rest) = some (js, rest) :=
      readElems_of_spells hjs hdepth.2 (by omega)
    simp only [List.cons_append, List.append_assoc]
    rw [readElems, hgap.skipSpace (hj.skipSpace _), hvalue]
    simp only [Option.bind_eq_bind, Option.bind_some, hgap'.skipSpace (hjs.head rest).2, helems,
      Option.pure_def]

theorem readField_of_spells {f : String × Json} {cs : List Char} (h : SpellsField f cs) {depth fuel : Nat}
    {rest : List Char} (hdepth : f.2.depth ≤ depth) (hfuel : cs.length ≤ fuel) (hrest : Stops rest) :
    readField fuel depth (cs ++ rest) = some (f, rest) := by
  match h with
  | @SpellsField.field name j cs gap gap' cs' hname hgap hgap' hj =>
    obtain ⟨_, hhead⟩ := hname.head
    obtain ⟨fuel, rfl⟩ := exists_fuel hfuel (by rw [hhead]; rfl)
    simp only [List.length_append, List.length_cons] at hfuel
    have hvalue : readValue fuel depth (cs' ++ rest) = some (j, rest) :=
      readValue_of_spells hj hdepth (by omega) fun _ _ => hrest
    have hcolon : skipSpace (gap ++ ':' :: (gap' ++ (cs' ++ rest))) = ':' :: (gap' ++ (cs' ++ rest)) :=
      hgap.skipSpace (skipSpace_cons (by decide) _)
    obtain ⟨inside, chars, htext, hread, rfl⟩ :=
      readChars_of_spells hname (gap ++ ':' :: (gap' ++ (cs' ++ rest)))
    simp only [List.append_assoc, List.cons_append]
    rw [htext, readField, hread]
    simp only [Option.bind_eq_bind, Option.bind_some, hcolon, hgap'.skipSpace (hj.skipSpace rest), hvalue,
      Option.pure_def]

theorem readFields_of_spells {fs : List (String × Json)} {cs : List Char} (h : SpellsFields fs cs)
    {depth fuel : Nat} {rest : List Char} (hdepth : depthFields fs ≤ depth) (hfuel : cs.length ≤ fuel) :
    readFields fuel depth (cs ++ rest) = some (fs, rest) := by
  match h with
  | .nil =>
    obtain ⟨fuel, rfl⟩ := exists_fuel hfuel rfl
    rw [List.singleton_append, readFields]
  | @SpellsFields.cons f fs gap cs gap' cs' hgap hf hgap' hfs =>
    obtain ⟨fuel, rfl⟩ := exists_fuel hfuel rfl
    rw [depthFields_cons, Nat.max_le] at hdepth
    simp only [List.length_append, List.length_cons] at hfuel
    have hfield : readField fuel depth (cs ++ (gap' ++ (cs' ++ rest))) = some (f, gap' ++ (cs' ++ rest)) :=
      readField_of_spells hf hdepth.1 (by omega) (hgap'.stops (hfs.head rest).1)
    have hfields : readFields fuel depth (cs' ++ rest) = some (fs, rest) :=
      readFields_of_spells hfs hdepth.2 (by omega)
    simp only [List.cons_append, List.append_assoc]
    rw [readFields, hgap.skipSpace (hf.skipSpace _), hfield]
    simp only [Option.bind_eq_bind, Option.bind_some, hgap'.skipSpace (hfs.head rest).2, hfields,
      Option.pure_def]

end

theorem SpellsFields.last {fs : List (String × Json)} {cs : List Char} (h : SpellsFields fs cs) :
    ∃ front, cs = front ++ ['\x7d'] := by
  match h with
  | .nil => exact ⟨[], rfl⟩
  | .cons hgap hf hgap' hfs =>
    obtain ⟨front, rfl⟩ := hfs.last
    exact ⟨_, (List.append_assoc _ _ _).symm⟩

theorem Spells.braces {fields : List (String × Json)} {cs : List Char} (h : Spells (.obj fields) cs) :
    ∃ inside, cs = '\x7b' :: (inside ++ ['\x7d']) := by
  cases h with
  | noFields hgap => exact ⟨_, rfl⟩
  | obj hgap hf hgap' hfs =>
    obtain ⟨front, rfl⟩ := hfs.last
    exact ⟨_, congrArg (List.cons _) (List.append_assoc _ _ _).symm⟩

mutual

theorem Spells.depth_le {j : Json} {cs : List Char} (h : Spells j cs) : j.depth ≤ cs.length := by
  match h with
  | .null | .boolTrue | .boolFalse | .num _ | .str _ => exact Nat.zero_le _
  | .noElems _ | .noFields _ => exact Nat.succ_le_succ (Nat.zero_le _)
  | .arr hgap hj hgap' hjs =>
    have helem := hj.depth_le
    have helems := hjs.depth_le
    simp only [depth, depthAll, List.length_append, List.length_cons]
    omega
  | .obj hgap hf hgap' hfs =>
    have hfield := hf.depth_le
    have hfields := hfs.depth_le
    simp only [depth, depthFields_cons, List.length_append, List.length_cons]
    omega

theorem SpellsElems.depth_le {js : List Json} {cs : List Char} (h : SpellsElems js cs) :
    depthAll js ≤ cs.length := by
  match h with
  | .nil => exact Nat.zero_le _
  | .cons hgap hj hgap' hjs =>
    have helem := hj.depth_le
    have helems := hjs.depth_le
    simp only [depthAll, List.length_append, List.length_cons]
    omega

theorem SpellsField.depth_le {f : String × Json} {cs : List Char} (h : SpellsField f cs) :
    f.2.depth ≤ cs.length := by
  match h with
  | .field hname hgap hgap' hj =>
    have hvalue := hj.depth_le
    simp only [List.length_append, List.length_cons]
    omega

theorem SpellsFields.depth_le {fs : List (String × Json)} {cs : List Char} (h : SpellsFields fs cs) :
    depthFields fs ≤ cs.length := by
  match h with
  | .nil => exact Nat.zero_le _
  | .cons hgap hf hgap' hfs =>
    have hfield := hf.depth_le
    have hfields := hfs.depth_le
    simp only [depthFields_cons, List.length_append, List.length_cons]
    omega

end

/-- The first value of a text is read whatever follows it, if it is no number. -/
theorem readFirst_of_spells {j : Json} {cs : List Char} (h : Spells j cs) (hdepth : j.depth ≤ maxDepth)
    (hj : ∀ text, j ≠ .num text) (rest : List Char) : readFirst (cs ++ rest) = some (j, rest) := by
  unfold readFirst
  rw [h.skipSpace]
  refine readValue_of_spells h hdepth ?_ fun text heq => absurd heq (hj text)
  rw [List.length_append]
  omega

end EventTally.Json
