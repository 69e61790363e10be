import EventTally.Proofs.Decimal.Numeral
import EventTally.Source.Token
import EventTally.Text.Quoted

/-! # Lexing what is written

The text of each atom and of each sign, followed by a text that no atom goes on into, is one lexeme
(`Lexes`). The lexemes of a text that is put together from such pieces are then those of the pieces
(`tokensFrom_lexeme`, `tokensFrom_gap`).
-/

namespace EventTally.Token

/-- A character at which every atom ends: white space or a closing bracket. -/
def isStop (c : Char) : Bool := Text.isBlank c || c == ')' || c == ']' || c == '\x7d'

/-- No atom goes on into the text: it is empty or starts with a stop. -/
def Stops (rest : List Char) : Prop := ∀ c ∈ rest.head?, isStop c = true

/-- The text is one lexeme wherever it stands before a stop. -/
def Lexes (kind : TokenKind) (cs : List Char) : Prop :=
  ∀ rest, Stops rest → scan (cs ++ rest) = .lexeme kind cs rest

theorem stops_nil : Stops [] := by
  intro c hc
  cases hc

theorem stops_cons {c : Char} (hc : isStop c = true) (cs : List Char) : Stops (c :: cs) := by
  intro d hd
  cases hd
  exact hc

/-- The class of characters that can stand in an atom after its first character. -/
def goesOn (c : Char) : Bool :=
  isIdentChar c || c == '.' || c == '?' || c == '!' || c == '=' || c == '>'

theorem goesOn_lt {c : Char} (hc : goesOn c = true) : c.toNat < 128 := by
  simp only [goesOn, isIdentChar, isIdentStart, isDigit, Bool.or_eq_true, Bool.and_eq_true,
    beq_iff_eq, decide_eq_true_eq, Char.le_def, UInt32.le_iff_toNat_le] at hc
  rcases hc with ((((((((⟨-, h⟩ | ⟨-, h⟩) | rfl) | ⟨-, h⟩) | rfl) | rfl) | rfl) | rfl) | rfl) | rfl
  all_goals first | decide | exact lt_of_le_of_lt h (by decide)

theorem goesOn_of_isStop {c : Char} (hc : isStop c = true) : goesOn c = false := by
  have hascii : ∀ n < 128, isStop (Char.ofNat n) = true → goesOn (Char.ofNat n) = false := by
    decide
  by_contra hgo
  have hlt := goesOn_lt (Bool.eq_true_of_not_eq_false hgo)
  rw [← Char.ofNat_toNat c] at hgo hc
  exact hgo (hascii c.toNat hlt hc)

theorem Stops.head {rest : List Char} (hrest : Stops rest) {p : Char → Bool}
    (hp : ∀ c, p c = true → goesOn c = true) : ∀ c ∈ rest.head?, p c = false := by
  intro c hc
  by_contra hpc
  have := goesOn_of_isStop (hrest c hc)
  rw [hp c (Bool.eq_true_of_not_eq_false hpc)] at this
  cases this

theorem Stops.head_ne {rest : List Char} (hrest : Stops rest) {c : Char} (hc : goesOn c = true) :
    rest.head? ≠ some c := by
  intro h
  have := goesOn_of_isStop (hrest c h)
  rw [hc] at this
  cases this

theorem splitWhile_eq {p : Char → Bool} {cs rest : List Char} (hcs : ∀ c ∈ cs, p c = true)
    (hrest : ∀ c ∈ rest.head?, p c = false) : splitWhile p (cs ++ rest) = (cs, rest) := by
  obtain ⟨htake, hdrop⟩ := Decimal.takeWhile_digits hcs hrest
  unfold splitWhile
  rw [htake, hdrop]

open Decimal (Numeral)

theorem sign_numeral {n : Numeral} (hn : n.Proper) (rest : List Char) :
    sign (n.sign ++ (n.whole ++ rest)) = (n.sign, n.whole ++ rest) := by
  unfold Numeral.sign
  cases n.negative with
  | true => rfl
  | false =>
    obtain ⟨c, cs, hwhole⟩ := List.exists_cons_of_ne_nil hn.whole_ne
    have hc := hn.whole c (by simp [hwhole])
    have hplus : c ≠ '+' := Decimal.isDigit_ne hc (by decide)
    have hminus : c ≠ '-' := Decimal.isDigit_ne hc (by decide)
    rw [hwhole]
    unfold sign
    split
    · next h => exact absurd (List.cons.inj h).1 hplus
    · next h => exact absurd (List.cons.inj h).1 hminus
    · rfl

theorem int?_numeral {n : Numeral} (hn : n.Proper) {rest : List Char}
    (hrest : ∀ c ∈ rest.head?, isDigit c = false) :
    int? (n.sign ++ (n.whole ++ rest)) = some (n.sign ++ n.whole, rest) := by
  have hsplit : splitWhile isDigit (n.whole ++ rest) = (n.whole, rest) :=
    splitWhile_eq hn.whole hrest
  unfold int?
  rw [sign_numeral hn]
  simp only [hsplit]
  split
  · next h => exact absurd (Prod.mk.inj h).1 hn.whole_ne
  · next h =>
    cases h
    rfl

theorem isDigit_goesOn {c : Char} (hc : isDigit c = true) : goesOn c = true := by
  unfold goesOn isIdentChar
  rw [hc]
  simp

theorem lexes_float {n : Numeral} (hn : n.Proper) (hpower : n.power = []) (hplaces : n.places ≠ []) :
    Lexes .float n.chars := by
  intro rest hrest
  have htext : n.chars ++ rest = n.sign ++ (n.whole ++ ('.' :: (n.places ++ rest))) := by
    simp [Numeral.chars, Numeral.pointed, Numeral.raised, hpower, hplaces]
  have hint : int? (n.chars ++ rest) = some (n.sign ++ n.whole, '.' :: (n.places ++ rest)) := by
    rw [htext]
    exact int?_numeral hn (by simp; decide)
  have hsplit : splitWhile isDigit (n.places ++ rest) = (n.places, rest) :=
    splitWhile_eq hn.places (hrest.head fun _ => isDigit_goesOn)
  have hfloat : float? (n.chars ++ rest) = some (n.chars, rest) := by
    unfold float?
    simp only [hint, hsplit]
    simp [Numeral.chars, Numeral.pointed, Numeral.raised, hpower, hplaces]
  unfold scan
  rw [hfloat]

theorem lexes_int {n : Numeral} (hn : n.Proper) (hpower : n.power = []) (hplaces : n.places = []) :
    Lexes .int n.chars := by
  intro rest hrest
  have hchars : n.chars = n.sign ++ n.whole := by
    simp [Numeral.chars, Numeral.pointed, Numeral.raised, hpower, hplaces]
  have hint : int? (n.chars ++ rest) = some (n.chars, rest) := by
    rw [hchars, List.append_assoc]
    exact int?_numeral hn (hrest.head fun _ => isDigit_goesOn)
  have hfloat : float? (n.chars ++ rest) = none := by
    unfold float?
    rw [hint]
    split
    · next h =>
      cases h
      exact absurd rfl (hrest.head_ne (c := '.') (by decide))
    · rfl
  unfold scan
  rw [hfloat, hint]

/-- A lexeme at the front of a text, by the pattern that it matches. -/
inductive Lexeme : List Char → TokenKind → List Char → List Char → Prop
  | float {cs piece rest : List Char} (h : float? cs = some (piece, rest)) : Lexeme cs .float piece rest
  | int {cs piece rest : List Char} (h : int? cs = some (piece, rest)) : Lexeme cs .int piece rest
  | symbol {cs piece rest : List Char} (h : symbol? cs = some (piece, rest)) : Lexeme cs .symbol piece rest
  | string {cs body rest : List Char} (h : stringEnd cs = .closed body rest) :
      Lexeme ('"' :: cs) .string ('"' :: body) rest
  | sign {text : String} {kind : TokenKind} (h : (text, kind) ∈ punctuation) (rest : List Char) :
      Lexeme (text.toList ++ rest) kind text.toList rest
  | blank {cs piece rest : List Char} (h : blank? cs = some (piece, rest)) : Lexeme cs .blank piece rest
  | comment {cs piece rest : List Char} (h : comment? cs = some (piece, rest)) :
      Lexeme cs .comment piece rest

theorem lexeme_of_scanMark {cs piece rest : List Char} {kind : TokenKind}
    (h : scanMark cs = .lexeme kind piece rest) : Lexeme cs kind piece rest := by
  unfold scanMark at h
  split at h
  · next hpunct =>
    cases h
    obtain ⟨⟨text, kind'⟩, hmem, hsome⟩ := List.exists_of_findSome?_eq_some hpunct
    obtain ⟨s, hlit, heq⟩ := Option.map_eq_some_iff.mp hsome
    cases heq
    obtain ⟨rfl, rfl⟩ := literal?_eq_some hlit
    exact .sign hmem rest
  · split at h
    · next hblank =>
      cases h
      exact .blank hblank
    · split at h
      · next hcomment =>
        cases h
        exact .comment hcomment
      · cases h

theorem lexeme_of_scan {cs piece rest : List Char} {kind : TokenKind}
    (h : scan cs = .lexeme kind piece rest) : Lexeme cs kind piece rest := by
  unfold scan scanText at h
  split at h
  · next hfloat =>
    cases h
    exact .float hfloat
  · split at h
    · next hint =>
      cases h
      exact .int hint
    · split at h
      · next hsym =>
        cases h
        exact .symbol hsym
      · split at h
        · split at h
          · next hclosed =>
            cases h
            exact .string hclosed
          · cases h
          · exact lexeme_of_scanMark h
        · exact lexeme_of_scanMark h

/-- The texts that symbols are made of: an operator, or an identifier with its mark. -/
inductive IsName : List Char → Prop
  | operator {op : String} (h : op ∈ operators) : IsName op.toList
  | ident {c : Char} {body mark : List Char} (hc : isIdentStart c = true)
      (hbody : ∀ d ∈ body, isIdentChar d = true) (hmark : mark = [] ∨ mark = ['?'] ∨ mark = ['!']) :
      IsName (c :: body ++ mark)

theorem isName_of_symbol? {cs piece rest : List Char} (h : symbol? cs = some (piece, rest)) :
    IsName piece := by
  unfold symbol? at h
  rcases Option.or_eq_some_iff.mp h with hop | ⟨-, hident⟩
  · obtain ⟨op, hmem, hlit⟩ := List.exists_of_findSome?_eq_some hop
    obtain ⟨rfl, -⟩ := literal?_eq_some hlit
    exact .operator hmem
  · cases cs with
    | nil => cases hident
    | cons c cs =>
      simp only [ident?] at hident
      split at hident
      · next hc =>
        have hbody : ∀ d ∈ (splitWhile isIdentChar cs).1, isIdentChar d = true :=
          fun d hd => List.mem_takeWhile_imp hd
        split at hident
        · next heq =>
          cases hident
          rw [heq] at hbody
          exact .ident hc hbody (Or.inr (Or.inl rfl))
        · next heq =>
          cases hident
          rw [heq] at hbody
          exact .ident hc hbody (Or.inr (Or.inr rfl))
        · next heq =>
          cases hident
          rw [heq] at hbody
          simpa using IsName.ident hc hbody (Or.inl rfl)
      · cases hident

theorem isName_of_scan {cs piece rest : List Char} (h : scan cs = .lexeme .symbol piece rest) :
    IsName piece := by
  have hall : ∀ p ∈ punctuation, p.2 ≠ .symbol := by decide
  cases lexeme_of_scan h with
  | symbol hsym => exact isName_of_symbol? hsym
  | sign hmem => exact absurd rfl (hall _ hmem)

theorem int?_eq_none {cs : List Char} (h : ∀ c ∈ (sign cs).2.head?, isDigit c = false) :
    int? cs = none := by
  have hsplit : splitWhile isDigit (sign cs).2 = ([], (sign cs).2) :=
    @splitWhile_eq isDigit [] _ (by simp) h
  unfold int?
  simp only [hsplit]

theorem scan_symbol {cs piece rest : List Char} (hint : int? cs = none)
    (hsym : symbol? cs = some (piece, rest)) : scan cs = .lexeme .symbol piece rest := by
  have hfloat : float? cs = none := by
    unfold float?
    rw [hint]
  unfold scan
  rw [hfloat, hint, hsym]

theorem lexes_operator {op : String} (hop : op ∈ operators) : Lexes .symbol op.toList := by
  intro rest hrest
  have hdigit := hrest.head fun _ => isDigit_goesOn
  have hgt := hrest.head_ne (c := '>') (by decide)
  have heq := hrest.head_ne (c := '=') (by decide)
  have hshort (p d : Char) (hd : rest.head? ≠ some d) :
      literal? [p, d] (p :: rest) = none := by
    cases rest with
    | nil => simp [literal?]
    | cons c cs =>
      have : d ≠ c := fun h => hd (by rw [h]; rfl)
      simp [literal?, this]
  have hhead (c : Char) (cs : List Char) (hc : isDigit c = false) :
      ∀ d ∈ (c :: cs).head?, isDigit d = false := by
    rintro d ⟨⟩
    exact hc
  simp only [operators, List.mem_cons, List.not_mem_nil, or_false] at hop
  apply scan_symbol
  · apply int?_eq_none
    rcases hop with rfl | rfl | rfl | rfl | rfl | rfl | rfl | rfl | rfl | rfl | rfl
    all_goals first | exact hdigit | exact hhead _ _ rfl
  · rcases hop with rfl | rfl | rfl | rfl | rfl | rfl | rfl | rfl | rfl | rfl | rfl
    all_goals simp [symbol?, operator?, operators, hshort _ _ hgt, hshort _ _ heq, literal?]

theorem identStart_spec {c : Char} (hc : isIdentStart c = true) :
    isDigit c = false ∧ c ≠ '+' ∧ c ≠ '-' ∧ c ≠ '"' ∧ ∀ op ∈ operators, op.toList.head? ≠ some c := by
  have hascii : ∀ n < 128, isIdentStart (Char.ofNat n) = true →
      isDigit (Char.ofNat n) = false ∧ Char.ofNat n ≠ '+' ∧ Char.ofNat n ≠ '-' ∧
      Char.ofNat n ≠ '"' ∧ ∀ op ∈ operators, op.toList.head? ≠ some (Char.ofNat n) := by decide
  have hlt : c.toNat < 128 := goesOn_lt (by simp [goesOn, isIdentChar, hc])
  rw [← Char.ofNat_toNat c] at hc ⊢
  exact hascii c.toNat hlt hc

theorem literal?_head {op : List Char} {c : Char} (hop : op ≠ []) (h : op.head? ≠ some c)
    (cs : List Char) : literal? op (c :: cs) = none := by
  obtain ⟨p, ps, rfl⟩ := List.exists_cons_of_ne_nil hop
  have hpc : p ≠ c := fun hpc => h (by rw [hpc]; rfl)
  simp [literal?, hpc]

theorem lexes_ident {c : Char} {body mark : List Char} (hc : isIdentStart c = true)
    (hbody : ∀ d ∈ body, isIdentChar d = true) (hmark : mark = [] ∨ mark = ['?'] ∨ mark = ['!']) :
    Lexes .symbol (c :: body ++ mark) := by
  intro rest hrest
  obtain ⟨hdigit, hplus, hminus, -, hops⟩ := identStart_spec hc
  have hsign : sign (c :: body ++ mark ++ rest) = ([], c :: body ++ mark ++ rest) := by
    unfold sign
    split
    · next h => exact absurd (List.cons.inj h).1 hplus
    · next h => exact absurd (List.cons.inj h).1 hminus
    · rfl
  have hop : operator? (c :: body ++ mark ++ rest) = none := by
    have hne : ∀ op ∈ operators, op.toList ≠ [] := by decide
    unfold operator?
    rw [List.findSome?_eq_none_iff]
    intro op hmem
    exact literal?_head (hne op hmem) (hops op hmem) _
  have hsplit : splitWhile isIdentChar (body ++ (mark ++ rest)) = (body, mark ++ rest) := by
    apply splitWhile_eq hbody
    rcases hmark with rfl | rfl | rfl
    · exact hrest.head fun d hd => by simp [goesOn, hd]
    · rintro d ⟨⟩
      rfl
    · rintro d ⟨⟩
      rfl
  apply scan_symbol
  · apply int?_eq_none
    rw [hsign]
    rintro d ⟨⟩
    exact hdigit
  · unfold symbol?
    rw [hop, Option.none_or, List.append_assoc, List.cons_append]
    unfold ident?
    simp only [hc, if_true, hsplit]
    rcases hmark with rfl | rfl | rfl
    · rw [List.nil_append, List.append_nil]
      split
      · next h =>
        cases h
        exact absurd rfl (hrest.head_ne (c := '?') (by decide))
      · next h =>
        cases h
        exact absurd rfl (hrest.head_ne (c := '!') (by decide))
      · next h =>
        cases h
        rfl
    · rfl
    · rfl

theorem IsName.lexes {cs : List Char} (h : IsName cs) : Lexes .symbol cs := by
  cases h with
  | operator hop => exact lexes_operator hop
  | ident hc hbody hmark => exact lexes_ident hc hbody hmark

theorem stringEnd_literalChar (c : Char) (cs : List Char) :
    stringEnd (Text.literalChar c ++ cs) = (stringEnd cs).cons (Text.literalChar c) := by
  unfold Text.literalChar
  split
  · rfl
  · rfl
  · rfl
  · rfl
  · rfl
  · next hback hquote _ _ _ =>
    rw [List.singleton_append, stringEnd]
    · exact fun h => hquote h
    · exact fun h _ => hback h
    · exact fun _ _ h _ => hback h

theorem stringEnd_literal (cs rest : List Char) :
    stringEnd (cs.flatMap Text.literalChar ++ '"' :: rest) =
      .closed (cs.flatMap Text.literalChar ++ ['"']) rest := by
  induction cs with
  | nil => rfl
  | cons c cs ih =>
    rw [List.flatMap_cons, List.append_assoc, stringEnd_literalChar, ih]
    simp [StringEnd.cons]

theorem scan_quote (cs : List Char) : scan ('"' :: cs) = scanText ('"' :: cs) := rfl

theorem lexes_string (cs : List Char) : Lexes .string (Text.literalChars cs) := by
  intro rest _
  have htext : Text.literalChars cs ++ rest = '"' :: (cs.flatMap Text.literalChar ++ '"' :: rest) := by
    simp [Text.literalChars]
  rw [htext, scan_quote]
  unfold scanText
  simp only [stringEnd_literal]
  rfl

theorem scan_punctuation {text : String} {kind : TokenKind} (h : (text, kind) ∈ punctuation)
    (rest : List Char) : scan (text.toList ++ rest) = .lexeme kind text.toList rest := by
  simp only [punctuation, List.mem_cons, List.not_mem_nil, or_false, Prod.mk.injEq] at h
  rcases h with ⟨rfl, rfl⟩ | ⟨rfl, rfl⟩ | ⟨rfl, rfl⟩ | ⟨rfl, rfl⟩ | ⟨rfl, rfl⟩ | ⟨rfl, rfl⟩ |
    ⟨rfl, rfl⟩ | ⟨rfl, rfl⟩ | ⟨rfl, rfl⟩ | ⟨rfl, rfl⟩ | ⟨rfl, rfl⟩
  all_goals rfl

theorem isBlank_ne {c d : Char} (hc : Text.isBlank c = true) (hd : Text.isBlank d = false) :
    c ≠ d := by
  rintro rfl
  rw [hc] at hd
  cases hd

theorem isStop_of_isBlank {c : Char} (hc : Text.isBlank c = true) : isStop c = true := by
  unfold isStop
  rw [hc]
  rfl

theorem scan_blank {c : Char} (hc : Text.isBlank c = true) (cs : List Char) :
    scan (c :: cs) = .lexeme .blank (c :: cs.takeWhile Text.isBlank) (cs.dropWhile Text.isBlank) := by
  have hgo := goesOn_of_isStop (isStop_of_isBlank hc)
  have hident : isIdentStart c = false := by
    simp only [goesOn, isIdentChar, Bool.or_eq_false_iff] at hgo
    exact hgo.1.1.1.1.1.1.1
  have hdigit : isDigit c = false := by
    simp only [goesOn, isIdentChar, Bool.or_eq_false_iff] at hgo
    exact hgo.1.1.1.1.1.1.2
  have hlit (op : List Char) (hop : op.head?.any Text.isBlank = false) (hne : op ≠ []) :
      literal? op (c :: cs) = none := by
    refine literal?_head hne (fun h => ?_) cs
    rw [h] at hop
    exact isBlank_ne hc hop rfl
  have hsign : sign (c :: cs) = ([], c :: cs) := by
    unfold sign
    split
    · next h => exact absurd (List.cons.inj h).1 (isBlank_ne hc (by decide))
    · next h => exact absurd (List.cons.inj h).1 (isBlank_ne hc (by decide))
    · rfl
  have hint : int? (c :: cs) = none := by
    apply int?_eq_none
    rw [hsign]
    rintro d ⟨⟩
    exact hdigit
  have hfloat : float? (c :: cs) = none := by
    unfold float?
    rw [hint]
  have hsym : symbol? (c :: cs) = none := by
    have hops : ∀ op ∈ operators, op.toList.head?.any Text.isBlank = false ∧ op.toList ≠ [] := by
      decide
    have hop : operator? (c :: cs) = none := by
      unfold operator?
      rw [List.findSome?_eq_none_iff]
      exact fun op hmem => hlit _ (hops op hmem).1 (hops op hmem).2
    unfold symbol?
    rw [hop]
    simp [ident?, hident]
  have hpunct : punctuation? (c :: cs) = none := by
    have hsigns : ∀ p ∈ punctuation, p.1.toList.head?.any Text.isBlank = false ∧
        p.1.toList ≠ [] := by decide
    unfold punctuation?
    rw [List.findSome?_eq_none_iff]
    intro p hmem
    simp only [hlit _ (hsigns p hmem).1 (hsigns p hmem).2, Option.map_none]
  have hmark : scanMark (c :: cs) = .lexeme .blank (c :: cs.takeWhile Text.isBlank)
      (cs.dropWhile Text.isBlank) := by
    unfold scanMark blank? splitWhile
    rw [hpunct]
    simp [hc]
  have htext : scanText (c :: cs) = scanMark (c :: cs) := by
    unfold scanText
    split
    · next h => exact absurd (List.cons.inj h).1 (isBlank_ne hc (by decide))
    · rfl
  unfold scan
  rw [hfloat, hint, hsym]
  exact htext.trans hmark

theorem not_isBlank_of_scan {c : Char} {cs piece rest : List Char} {kind : TokenKind}
    (h : scan (c :: cs) = .lexeme kind piece rest) (hkind : kind ≠ .blank) :
    Text.isBlank c = false := by
  by_contra hc
  rw [scan_blank (Bool.eq_true_of_not_eq_false hc)] at h
  cases h
  exact hkind rfl

section

variable {cs piece rest : List Char} {kind : TokenKind}

theorem tokensFrom_of_lexeme (h : scan cs = .lexeme kind piece rest) (pos : Nat)
    (stray : List Char) :
    tokensFrom pos stray cs = strays pos stray ++ (if kind.isGap then [] else
      [{ kind, text := String.ofList piece,
         span := ⟨pos + Text.byteLength stray,
           pos + Text.byteLength stray + Text.byteLength piece⟩ }]) ++
      tokensFrom (pos + Text.byteLength stray + Text.byteLength piece) [] rest := by
  obtain ⟨hsplit, hpiece⟩ := scan_eq_lexeme h
  cases cs with
  | nil => exact absurd (List.append_eq_nil_iff.mp hsplit.symm).1 hpiece
  | cons c cs =>
    rw [tokensFrom]
    dsimp only
    split
    · next h' =>
      rw [h] at h'
      cases h'
      rfl
    · next h' =>
      rw [h] at h'
      cases h'
    · next h' =>
      rw [h] at h'
      cases h'

theorem tokensFrom_of_stray {c : Char} (h : scan (c :: cs) = .stray) (pos : Nat)
    (stray : List Char) : tokensFrom pos stray (c :: cs) = tokensFrom pos (c :: stray) cs := by
  rw [tokensFrom]
  dsimp only
  split
  · next h' =>
    rw [h] at h'
    cases h'
  · next h' =>
    rw [h] at h'
    cases h'
  · rfl

theorem tokensFrom_of_literal {c : Char} (h : scan (c :: cs) = .unterminated) (pos : Nat)
    (stray : List Char) :
    let stop := pos + Text.byteLength stray + Text.byteLength (c :: cs)
    tokensFrom pos stray (c :: cs) =
      [{ kind := .error, text := String.ofList (stray.reverse ++ c :: cs), span := ⟨pos, stop⟩,
         unterminated := true },
       { kind := .eof, text := "", span := ⟨stop, stop⟩ }] := by
  rw [tokensFrom]
  dsimp only
  split
  · next h' =>
    rw [h] at h'
    cases h'
  · rfl
  · next h' =>
    rw [h] at h'
    cases h'

theorem tokensFrom_lexeme (pos : Nat) (h : scan cs = .lexeme kind piece rest) (hgap : kind.isGap = false) :
    tokensFrom pos [] cs =
      { kind, text := String.ofList piece, span := ⟨pos, pos + Text.byteLength piece⟩ } ::
        tokensFrom (pos + Text.byteLength piece) [] rest := by
  rw [tokensFrom_of_lexeme h, hgap]
  rfl

/-- The token is one that the scanner finds in some text, and no gap. -/
structure Lexed (t : Token) : Prop where
  token : t.kind.isGap = false
  scan : ∃ cs rest, Token.scan cs = .lexeme t.kind t.text.toList rest

theorem mem_strays {pos : Nat} {stray : List Char} {t : Token} (ht : t ∈ strays pos stray) :
    t.kind = .error ∧ t.unterminated = false := by
  cases stray with
  | nil => cases ht
  | cons c stray =>
    rw [List.mem_singleton.mp ht]
    exact ⟨rfl, rfl⟩

/-- The last token is the end of the text. Each other one is found by the scanner, or it is text that
starts no token. -/
theorem tokensFrom_eq_concat (pos : Nat) (stray cs : List Char) :
    ∃ ts eof, tokensFrom pos stray cs = ts ++ [eof] ∧ eof.kind = .eof ∧
      ∀ t ∈ ts, t.kind = .error ∨ t.Lexed := by
  fun_induction tokensFrom pos stray cs with
  | case1 pos stray => exact ⟨_, _, rfl, rfl, fun t ht => .inl (mem_strays ht).1⟩
  | case2 pos stray c tail start kind piece rest hscan stop token ih =>
    obtain ⟨ts, eof, heq, heof, hall⟩ := ih
    refine ⟨_, eof, by rw [heq, ← List.append_assoc], heof, fun t ht => ?_⟩
    rcases List.mem_append.mp ht with ht | ht
    · rcases List.mem_append.mp ht with ht | ht
      · exact .inl (mem_strays ht).1
      · split at ht
        · cases ht
        · next hgap =>
          rw [List.mem_singleton.mp ht]
          refine .inr ⟨Bool.eq_false_iff.mpr hgap, c :: tail, rest, ?_⟩
          rw [String.toList_ofList]
          exact hscan
    · exact hall t ht
  | case3 pos stray c tail start hscan stop =>
    refine ⟨[_], _, rfl, rfl, fun t ht => .inl ?_⟩
    rw [List.mem_singleton.mp ht]
  | case4 pos stray c tail hscan ih => exact ih

theorem mem_tokensFrom {pos : Nat} {stray : List Char} {t : Token} (ht : t ∈ tokensFrom pos stray cs) :
    t.kind = .error ∨ t.kind = .eof ∨ t.Lexed := by
  obtain ⟨ts, eof, heq, heof, hall⟩ := tokensFrom_eq_concat pos stray cs
  rw [heq] at ht
  rcases List.mem_append.mp ht with ht | ht
  · exact (hall t ht).imp_right .inr
  · rw [List.mem_singleton.mp ht]
    exact .inr (.inl heof)

end

structure IsGap (cs : List Char) : Prop where
  nonempty : cs ≠ []
  blank : ∀ c ∈ cs, Text.isBlank c = true

theorem isGap_singleton {c : Char} (hc : Text.isBlank c = true) : IsGap [c] :=
  ⟨by simp, by simpa using hc⟩

theorem IsGap.cons {c : Char} {cs : List Char} (hc : Text.isBlank c = true)
    (hcs : ∀ d ∈ cs, Text.isBlank d = true) : IsGap (c :: cs) :=
  ⟨by simp, List.forall_mem_cons.mpr ⟨hc, hcs⟩⟩

theorem tokensFrom_gap {bs cs : List Char} (hbs : IsGap bs)
    (hcs : ∀ d ∈ cs.head?, Text.isBlank d = false) (pos : Nat) :
    ∃ pos', tokensFrom pos [] (bs ++ cs) = tokensFrom pos' [] cs := by
  obtain ⟨hne, hblank⟩ := hbs
  obtain ⟨c, bs, rfl⟩ := List.exists_cons_of_ne_nil hne
  obtain ⟨hc, hbs⟩ := List.forall_mem_cons.mp hblank
  have hdrop : (bs ++ cs).dropWhile Text.isBlank = cs := by
    rw [List.dropWhile_append_of_pos hbs]
    cases cs with
    | nil => rfl
    | cons d cs => simp [hcs d rfl]
  have hscan := scan_blank hc (bs ++ cs)
  rw [hdrop] at hscan
  rw [List.cons_append, tokensFrom_of_lexeme hscan]
  exact ⟨_, rfl⟩

theorem tokensFrom_nil (pos : Nat) :
    ∃ t : Token, t.kind = .eof ∧ tokensFrom pos [] [] = [t] := by
  rw [tokensFrom]
  exact ⟨_, rfl, rfl⟩

end EventTally.Token
