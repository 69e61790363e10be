import EventTally.Json

/-! # The grammar of JSON

Which texts are a JSON value (`Spells`), apart from how they are read. The reader takes from the front of
a text a part that is a text of the value it gives, and leaves the rest as it is (`spells_readFirst`). The
value is nested no deeper than the reader goes (`depth_of_readFirst`).
-/

namespace EventTally.Json

/-- Spaces may stand around the values and the marks. -/
def Gap (cs : List Char) : Prop := ∀ c ∈ cs, isSpace c = true

structure Digits (cs : List Char) : Prop where
  ne_nil : cs ≠ []
  digit : ∀ c ∈ cs, isDigit c = true

/-- The whole part of a number, which starts with a zero only if it is zero. -/
structure Whole (cs : List Char) : Prop extends Digits cs where
  leading : cs = ['0'] ∨ cs.head? ≠ some '0'

def SpellsPlaces (cs : List Char) : Prop := cs = [] ∨ ∃ digits, cs = '.' :: digits ∧ Digits digits

def SpellsPower (cs : List Char) : Prop :=
  cs = [] ∨ ∃ mark sign digits, cs = mark :: (sign ++ digits) ∧ (mark = 'e' ∨ mark = 'E') ∧
    (sign = [] ∨ sign = ['+'] ∨ sign = ['-']) ∧ Digits digits

/-- A whole part, before which a minus sign may stand, with its places and its exponent. -/
def SpellsNumber (cs : List Char) : Prop :=
  ∃ sign whole places power, cs = sign ++ whole ++ places ++ power ∧ (sign = [] ∨ sign = ['-']) ∧
    Whole whole ∧ SpellsPlaces places ∧ SpellsPower power

/-- The inside of a string and the code points and code units that it stands for. -/
inductive SpellsUnits : List Nat → List Char → Prop
  | nil : SpellsUnits [] []
  | plain {c : Char} {ns : List Nat} {cs : List Char} (hquote : c ≠ '"') (hslash : c ≠ '\\')
      (hcontrol : 0x20 ≤ c.toNat) (h : SpellsUnits ns cs) : SpellsUnits (c.toNat :: ns) (c :: cs)
  | escape {c e : Char} {ns : List Nat} {cs : List Char} (hc : shortEscape? c = some e)
      (h : SpellsUnits ns cs) : SpellsUnits (e.toNat :: ns) ('\\' :: c :: cs)
  | unit {a b c d : Char} {n : Nat} {ns : List Nat} {cs : List Char} (hn : unit? a b c d = some n)
      (h : SpellsUnits ns cs) : SpellsUnits (n :: ns) ('\\' :: 'u' :: a :: b :: c :: d :: cs)

inductive SpellsString : String → List Char → Prop
  | quoted {ns : List Nat} {cs : List Char} (h : SpellsUnits ns cs) :
      SpellsString (String.ofList (joinUnits ns)) ('"' :: cs ++ ['"'])

mutual

/-- The text is one value and nothing else. -/
inductive Spells : Json → List Char → Prop
  | null : Spells .null ['n', 'u', 'l', 'l']
  | boolTrue : Spells (.bool true) ['t', 'r', 'u', 'e']
  | boolFalse : Spells (.bool false) ['f', 'a', 'l', 's', 'e']
  | num {cs : List Char} (h : SpellsNumber cs) : Spells (.num (String.ofList cs)) cs
  | str {s : String} {cs : List Char} (h : SpellsString s cs) : Spells (.str s) cs
  | noElems {gap : List Char} (hgap : Gap gap) : Spells (.arr []) ('[' :: gap ++ [']'])
  | arr {j : Json} {js : List Json} {gap cs gap' rest : List Char} (hgap : Gap gap) (hj : Spells j cs)
      (hgap' : Gap gap') (hjs : SpellsElems js rest) :
      Spells (.arr (j :: js)) ('[' :: gap ++ cs ++ gap' ++ rest)
  | noFields {gap : List Char} (hgap : Gap gap) : Spells (.obj []) ('\x7b' :: gap ++ ['\x7d'])
  | obj {f : String × Json} {fs : List (String × Json)} {gap cs gap' rest : List Char} (hgap : Gap gap)
      (hf : SpellsField f cs) (hgap' : Gap gap') (hfs : SpellsFields fs rest) :
      Spells (.obj (f :: fs)) ('\x7b' :: gap ++ cs ++ gap' ++ rest)

/-- The elements after the first, and the closing bracket. -/
inductive SpellsElems : List Json → List Char → Prop
  | nil : SpellsElems [] [']']
  | cons {j : Json} {js : List Json} {gap cs gap' rest : List Char} (hgap : Gap gap) (hj : Spells j cs)
      (hgap' : Gap gap') (hjs : SpellsElems js rest) :
      SpellsElems (j :: js) (',' :: gap ++ cs ++ gap' ++ rest)

inductive SpellsField : String × Json → List Char → Prop
  | field {name : String} {j : Json} {cs gap gap' rest : List Char} (hname : SpellsString name cs)
      (hgap : Gap gap) (hgap' : Gap gap') (hj : Spells j rest) :
      SpellsField (name, j) (cs ++ gap ++ ':' :: gap' ++ rest)

/-- The fields after the first, and the closing brace. -/
inductive SpellsFields : List (String × Json) → List Char → Prop
  | nil : SpellsFields [] ['\x7d']
  | cons {f : String × Json} {fs : List (String × Json)} {gap cs gap' rest : List Char} (hgap : Gap gap)
      (hf : SpellsField f cs) (hgap' : Gap gap') (hfs : SpellsFields fs rest) :
      SpellsFields (f :: fs) (',' :: gap ++ cs ++ gap' ++ rest)

end

mutual

/-- How deep arrays and objects are nested. -/
def depth : Json → Nat
  | .arr js => depthAll js + 1
  | .obj fields => depthFields fields + 1
  | _ => 0

def depthAll : List Json → Nat
  | [] => 0
  | j :: js => max (depth j) (depthAll js)

def depthFields : List (String × Json) → Nat
  | [] => 0
  | (_, j) :: fields => max (depth j) (depthFields fields)

end

mutual

theorem opened_le_depth (j : Json) : j.opened ≤ j.depth := by
  match j with
  | .null | .bool _ | .num _ | .str _ | .arr [] | .obj [] => exact Nat.zero_le _
  | .arr (j :: js) =>
    have hj := j.opened_le_depth
    have hjs := openedElems_le_depthAll js
    simp only [opened, depth, depthAll]
    omega
  | .obj ((_, j) :: fields) =>
    have hj := j.opened_le_depth
    have hfields := openedFields_le_depthFields fields
    simp only [opened, depth, depthFields]
    omega

theorem openedElems_le_depthAll (js : List Json) : openedElems js ≤ depthAll js := by
  match js with
  | [] => exact Nat.le_refl 0
  | j :: js =>
    have hj := j.opened_le_depth
    have hjs := openedElems_le_depthAll js
    simp only [openedElems, depthAll]
    omega

theorem openedFields_le_depthFields (fields : List (String × Json)) :
    openedFields fields ≤ depthFields fields := by
  match fields with
  | [] => exact Nat.le_refl 0
  | (_, j) :: fields =>
    have hj := j.opened_le_depth
    have hfields := openedFields_le_depthFields fields
    simp only [openedFields, depthFields]
    omega

end

theorem depthAll_le_iff {js : List Json} {n : Nat} : depthAll js ≤ n ↔ ∀ j ∈ js, j.depth ≤ n := by
  induction js with
  | nil => simp [depthAll]
  | cons j js ih => rw [depthAll, Nat.max_le, ih, List.forall_mem_cons]

theorem gap_skipSpace (cs : List Char) : ∃ gap, cs = gap ++ skipSpace cs ∧ Gap gap :=
  ⟨cs.takeWhile isSpace, List.takeWhile_append_dropWhile.symm, List.all_eq_true.mp List.all_takeWhile⟩

theorem takeWhile_digits {cs digits : List Char} (h : cs.takeWhile isDigit = digits) (hne : digits ≠ []) :
    Digits digits ∧ cs = digits ++ cs.dropWhile isDigit := by
  subst h
  exact ⟨⟨hne, List.all_eq_true.mp List.all_takeWhile⟩, List.takeWhile_append_dropWhile.symm⟩

theorem whole_readWhole {cs whole rest : List Char} (h : readWhole cs = some (whole, rest)) :
    Whole whole ∧ cs = whole ++ rest := by
  unfold readWhole at h
  split at h
  · cases h
    exact ⟨⟨⟨List.cons_ne_nil _ _, List.forall_mem_singleton.mpr rfl⟩, .inl rfl⟩, rfl⟩
  · next hzero =>
    split at h
    · cases h
    · next hne =>
      cases h
      obtain ⟨hdigits, heq⟩ := takeWhile_digits rfl hne
      refine ⟨⟨hdigits, .inr fun hhead => ?_⟩, heq⟩
      -- A front that starts with a zero would make the text start with one.
      obtain ⟨more, hmore⟩ := List.head?_eq_some_iff.mp hhead
      rw [hmore] at heq
      exact hzero _ heq

theorem spells_readPlaces {cs places rest : List Char} (h : readPlaces cs = some (places, rest)) :
    SpellsPlaces places ∧ cs = places ++ rest := by
  unfold readPlaces at h
  split at h
  · split at h
    · cases h
    · next hne =>
      cases h
      obtain ⟨hdigits, heq⟩ := takeWhile_digits rfl hne
      exact ⟨.inr ⟨_, rfl, hdigits⟩, congrArg ('.' :: ·) heq⟩
  · cases h
    exact ⟨.inl rfl, rfl⟩

theorem digits_readPower {mark cs power rest : List Char} (h : readPower mark cs = some (power, rest)) :
    ∃ digits, power = mark ++ digits ∧ Digits digits ∧ mark ++ cs = power ++ rest := by
  unfold readPower at h
  split at h
  · cases h
  · next hne =>
    cases h
    obtain ⟨hdigits, heq⟩ := takeWhile_digits rfl hne
    exact ⟨_, rfl, hdigits, by rw [List.append_assoc, ← heq]⟩

theorem spells_readExponent {cs power rest : List Char} (h : readExponent cs = some (power, rest)) :
    SpellsPower power ∧ cs = power ++ rest := by
  unfold readExponent at h
  split at h
  · next c cs =>
    split at h
    · next hmark =>
      have hmark' : c = 'e' ∨ c = 'E' := by simpa using hmark
      split at h
      · obtain ⟨digits, hpower, hdigits, heq⟩ := digits_readPower h
        exact ⟨.inr ⟨c, ['+'], digits, hpower, hmark', .inr (.inl rfl), hdigits⟩, heq⟩
      · obtain ⟨digits, hpower, hdigits, heq⟩ := digits_readPower h
        exact ⟨.inr ⟨c, ['-'], digits, hpower, hmark', .inr (.inr rfl), hdigits⟩, heq⟩
      · obtain ⟨digits, hpower, hdigits, heq⟩ := digits_readPower h
        exact ⟨.inr ⟨c, [], digits, hpower, hmark', .inl rfl, hdigits⟩, heq⟩
    · cases h
      exact ⟨.inl rfl, rfl⟩
  · cases h
    exact ⟨.inl rfl, rfl⟩

theorem spells_readNumber {cs digits rest : List Char} (h : readNumber cs = some (digits, rest)) :
    SpellsNumber digits ∧ cs = digits ++ rest := by
  unfold readNumber at h
  split at h
  next sign cs' hsplit =>
  obtain ⟨hsign, rfl⟩ : (sign = [] ∨ sign = ['-']) ∧ cs = sign ++ cs' := by
    split at hsplit
    · cases hsplit
      exact ⟨.inr rfl, rfl⟩
    · cases hsplit
      exact ⟨.inl rfl, rfl⟩
  simp only [Option.bind_eq_bind, Option.bind_eq_some_iff, Prod.exists, Option.pure_def,
    Option.some.injEq, Prod.mk.injEq] at h
  obtain ⟨whole, cs₁, hwhole, places, cs₂, hplaces, power, cs₃, hpower, rfl, rfl⟩ := h
  obtain ⟨hdigits, rfl⟩ := whole_readWhole hwhole
  obtain ⟨hfraction, rfl⟩ := spells_readPlaces hplaces
  obtain ⟨hexponent, rfl⟩ := spells_readExponent hpower
  exact ⟨⟨sign, whole, places, power, rfl, hsign, hdigits, hfraction, hexponent⟩, by simp⟩

theorem spells_readUnits {cs : List Char} {ns : List Nat} {rest : List Char}
    (h : readUnits cs = some (ns, rest)) : ∃ inside, SpellsUnits ns inside ∧ cs = inside ++ '"' :: rest := by
  fun_induction readUnits cs generalizing ns rest with
  | case1 => cases h
  | case2 rest' =>
    cases h
    exact ⟨[], .nil, rfl⟩
  | case3 a b c d rest' n hn ih =>
    obtain ⟨⟨ns', rest''⟩, hread, heq⟩ := Option.map_eq_some_iff.mp h
    cases heq
    obtain ⟨inside, hinside, rfl⟩ := ih hread
    exact ⟨_, .unit hn hinside, rfl⟩
  | case4 => cases h
  | case5 c rest' hne e he ih =>
    obtain ⟨⟨ns', rest''⟩, hread, heq⟩ := Option.map_eq_some_iff.mp h
    cases heq
    obtain ⟨inside, hinside, rfl⟩ := ih hread
    exact ⟨_, .escape he hinside, rfl⟩
  | case6 => cases h
  | case7 => cases h
  | case8 c rest' hquote _ _ hplain ih =>
    obtain ⟨⟨ns', rest''⟩, hread, heq⟩ := Option.map_eq_some_iff.mp h
    cases heq
    obtain ⟨inside, hinside, rfl⟩ := ih hread
    obtain ⟨hcontrol, hslash⟩ : 0x20 ≤ c.toNat ∧ c ≠ '\\' := by simpa using hplain
    exact ⟨_, .plain hquote hslash hcontrol hinside, rfl⟩

theorem spells_readChars {cs s rest : List Char} (h : readChars cs = some (s, rest)) :
    ∃ taken, SpellsString (String.ofList s) taken ∧ '"' :: cs = taken ++ rest := by
  obtain ⟨⟨ns, rest'⟩, hread, heq⟩ := Option.map_eq_some_iff.mp h
  cases heq
  obtain ⟨inside, hinside, rfl⟩ := spells_readUnits hread
  exact ⟨_, .quoted hinside, by simp⟩

theorem readWord_eq {ws cs rest : List Char} (h : readWord ws cs = some rest) : cs = ws ++ rest := by
  induction ws generalizing cs with
  | nil => exact Option.some.inj h
  | cons w ws ih =>
    cases cs with
    | nil => cases h
    | cons c cs =>
      rw [readWord] at h
      split at h
      · next heq =>
        rw [ih h, heq]
        rfl
      · cases h

/-- What the readers give with some fuel is what they take from the front of a text, and is nested no deeper
than they are allowed to go. -/
structure ReadsSpelled (fuel : Nat) : Prop where
  value : ∀ {depth cs j rest}, readValue fuel depth cs = some (j, rest) →
    j.depth ≤ depth ∧ ∃ taken, Spells j taken ∧ cs = taken ++ rest
  elems : ∀ {depth cs js rest}, readElems fuel depth cs = some (js, rest) →
    depthAll js ≤ depth ∧ ∃ taken, SpellsElems js taken ∧ cs = taken ++ rest
  field : ∀ {depth cs f rest}, readField fuel depth cs = some (f, rest) →
    f.2.depth ≤ depth ∧ ∃ taken, SpellsField f taken ∧ cs = taken ++ rest
  fields : ∀ {depth cs fs rest}, readFields fuel depth cs = some (fs, rest) →
    depthFields fs ≤ depth ∧ ∃ taken, SpellsFields fs taken ∧ cs = taken ++ rest

theorem spells_word {j : Json} {ws cs : List Char} {c : Char} {rest : List Char} (hj : Spells j (c :: ws))
    (hdepth : j.depth = 0) {i : Json} (h : (readWord ws cs).map (fun r => (j, r)) = some (i, rest)) {n : Nat} :
    i.depth ≤ n ∧ ∃ taken, Spells i taken ∧ c :: cs = taken ++ rest := by
  obtain ⟨rest', hread, heq⟩ := Option.map_eq_some_iff.mp h
  cases heq
  exact ⟨hdepth ▸ Nat.zero_le n, _, hj, congrArg (c :: ·) (readWord_eq hread)⟩

theorem ReadsSpelled.succ_value {fuel : Nat} (ih : ReadsSpelled fuel) {depth : Nat} {cs : List Char}
    {j : Json} {rest : List Char} (h : readValue (fuel + 1) depth cs = some (j, rest)) :
    j.depth ≤ depth ∧ ∃ taken, Spells j taken ∧ cs = taken ++ rest := by
  rw [readValue.eq_def] at h
  simp only at h
  split at h
  · cases h
  · exact spells_word .null rfl h
  · exact spells_word .boolTrue rfl h
  · exact spells_word .boolFalse rfl h
  · obtain ⟨⟨s, rest'⟩, hread, heq⟩ := Option.map_eq_some_iff.mp h
    cases heq
    obtain ⟨taken, htaken, heq⟩ := spells_readChars hread
    exact ⟨Nat.zero_le _, taken, .str htaken, heq⟩
  · next cs =>
    obtain ⟨gap, hcs, hgap⟩ := gap_skipSpace cs
    split at h
    · cases h
    · next hskip =>
      cases h
      exact ⟨Nat.succ_le_succ (Nat.zero_le _), _, .noElems hgap, by rw [hcs, hskip]; simp⟩
    · simp only [Option.bind_eq_bind, Option.bind_eq_some_iff, Prod.exists] at h
      obtain ⟨j, cs₁, hj, js, cs₂, hjs, heq⟩ := h
      cases heq
      obtain ⟨hdepth, taken, htaken, heq⟩ := ih.value hj
      obtain ⟨hdepths, later, hlater, heq'⟩ := ih.elems hjs
      obtain ⟨gap', hcs', hgap'⟩ := gap_skipSpace cs₁
      refine ⟨Nat.succ_le_succ (Nat.max_le.mpr ⟨hdepth, hdepths⟩), _, .arr hgap htaken hgap' hlater, ?_⟩
      rw [hcs, heq, hcs', heq']
      simp
  · next cs =>
    obtain ⟨gap, hcs, hgap⟩ := gap_skipSpace cs
    split at h
    · cases h
    · next hskip =>
      cases h
      exact ⟨Nat.succ_le_succ (Nat.zero_le _), _, .noFields hgap, by rw [hcs, hskip]; simp⟩
    · simp only [Option.bind_eq_bind, Option.bind_eq_some_iff, Prod.exists] at h
      obtain ⟨name, j, cs₁, hf, fs, cs₂, hfs, heq⟩ := h
      cases heq
      obtain ⟨hdepth, taken, htaken, heq⟩ := ih.field hf
      obtain ⟨hdepths, later, hlater, heq'⟩ := ih.fields hfs
      obtain ⟨gap', hcs', hgap'⟩ := gap_skipSpace cs₁
      refine ⟨Nat.succ_le_succ (Nat.max_le.mpr ⟨hdepth, hdepths⟩), _, .obj hgap htaken hgap' hlater, ?_⟩
      rw [hcs, heq, hcs', heq']
      simp
  · obtain ⟨⟨digits, rest'⟩, hread, heq⟩ := Option.map_eq_some_iff.mp h
    cases heq
    obtain ⟨hdigits, heq⟩ := spells_readNumber hread
    exact ⟨Nat.zero_le _, digits, .num hdigits, heq⟩

theorem readsSpelled (fuel : Nat) : ReadsSpelled fuel := by
  induction fuel with
  | zero =>
    constructor <;> intro _ _ _ _ h <;> simp [readValue, readElems, readField, readFields] at h
  | succ fuel ih =>
    constructor
    case value => exact ih.succ_value
    case elems =>
      intro depth cs js rest h
      rw [readElems.eq_def] at h
      simp only at h
      split at h
      · cases h
        exact ⟨Nat.zero_le _, _, .nil, rfl⟩
      · next cs =>
        simp only [Option.bind_eq_bind, Option.bind_eq_some_iff, Prod.exists] at h
        obtain ⟨j, cs₁, hj, js, cs₂, hjs, heq⟩ := h
        cases heq
        obtain ⟨gap, hcs, hgap⟩ := gap_skipSpace cs
        obtain ⟨gap', hcs', hgap'⟩ := gap_skipSpace cs₁
        obtain ⟨hdepth, taken, htaken, heq⟩ := ih.value hj
        obtain ⟨hdepths, later, hlater, heq'⟩ := ih.elems hjs
        refine ⟨Nat.max_le.mpr ⟨hdepth, hdepths⟩, _, .cons hgap htaken hgap' hlater, ?_⟩
        rw [hcs, heq, hcs', heq']
        simp
      · cases h
    case field =>
      intro depth cs f rest h
      rw [readField.eq_def] at h
      simp only at h
      split at h
      · simp only [Option.bind_eq_bind, Option.bind_eq_some_iff, Prod.exists] at h
        obtain ⟨name, cs₁, hname, h⟩ := h
        split at h
        · next cs₂ hskip =>
          simp only [Option.bind_eq_some_iff, Prod.exists] at h
          obtain ⟨j, cs₃, hj, heq⟩ := h
          cases heq
          obtain ⟨text, htext, heq⟩ := spells_readChars hname
          obtain ⟨gap, hcs, hgap⟩ := gap_skipSpace cs₁
          obtain ⟨gap', hcs', hgap'⟩ := gap_skipSpace cs₂
          obtain ⟨hdepth, taken, htaken, heq'⟩ := ih.value hj
          refine ⟨hdepth, _, .field htext hgap hgap' htaken, ?_⟩
          rw [heq, hcs, hskip, hcs', heq']
          simp
        · cases h
      · cases h
    case fields =>
      intro depth cs fs rest h
      rw [readFields.eq_def] at h
      simp only at h
      split at h
      · cases h
        exact ⟨Nat.zero_le _, _, .nil, rfl⟩
      · next cs =>
        simp only [Option.bind_eq_bind, Option.bind_eq_some_iff, Prod.exists] at h
        obtain ⟨name, j, cs₁, hf, fs, cs₂, hfs, heq⟩ := h
        cases heq
        obtain ⟨gap, hcs, hgap⟩ := gap_skipSpace cs
        obtain ⟨gap', hcs', hgap'⟩ := gap_skipSpace cs₁
        obtain ⟨hdepth, taken, htaken, heq⟩ := ih.field hf
        obtain ⟨hdepths, later, hlater, heq'⟩ := ih.fields hfs
        refine ⟨Nat.max_le.mpr ⟨hdepth, hdepths⟩, _, .cons hgap htaken hgap' hlater, ?_⟩
        rw [hcs, heq, hcs', heq']
        simp
      · cases h

/-- The first value of a text is spelled by a part of it that only spaces precede. -/
theorem spells_readFirst {cs : List Char} {j : Json} {rest : List Char}
    (h : readFirst cs = some (j, rest)) :
    ∃ gap taken, Gap gap ∧ Spells j taken ∧ cs = gap ++ taken ++ rest := by
  obtain ⟨gap, hcs, hgap⟩ := gap_skipSpace cs
  obtain ⟨-, taken, htaken, heq⟩ := (readsSpelled _).value h
  refine ⟨gap, taken, hgap, htaken, ?_⟩
  rw [hcs, heq, List.append_assoc]

theorem depth_of_readFirst {cs : List Char} {j : Json} {rest : List Char}
    (h : readFirst cs = some (j, rest)) : j.depth ≤ maxDepth := ((readsSpelled _).value h).1

end EventTally.Json
