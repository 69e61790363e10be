import EventTally.Proofs.Source.Tiling

/-! # White space between tokens

Each pattern needs nothing of what comes after its piece, so the text of a token alone is scanned as that
token (`scan_alone`). So white space tells tokens apart and does nothing else: the tokens of a text without
errors are those of every text in which theirs are joined by white space (`tokenize_respaced`).
-/

namespace EventTally.Token

variable {cs piece rest gap : List Char} {kind : TokenKind}

theorem splitWhile_of_all {p : Char → Bool} (h : ∀ c ∈ cs, p c = true) : splitWhile p cs = (cs, []) := by
  have hsplit : splitWhile p (cs ++ []) = (cs, []) := splitWhile_eq h nofun
  rwa [List.append_nil] at hsplit

inductive IsInteger : List Char → Prop
  | digits {sign ds : List Char} (hsign : sign = [] ∨ sign = ['+'] ∨ sign = ['-']) (hne : ds ≠ [])
      (hds : ∀ c ∈ ds, isDigit c = true) : IsInteger (sign ++ ds)

theorem isInteger_of_int? (h : int? cs = some (piece, rest)) : IsInteger piece := by
  have hsign : (sign cs).1 = [] ∨ (sign cs).1 = ['+'] ∨ (sign cs).1 = ['-'] := by
    unfold sign
    split <;> simp
  have hdigits : ∀ c ∈ (splitWhile isDigit (sign cs).2).1, isDigit c = true :=
    fun c hc => List.mem_takeWhile_imp hc
  simp only [int?] at h
  split at h
  · cases h
  · next digits back hne heq =>
    cases h
    rw [heq] at hdigits
    exact .digits hsign hne hdigits

theorem IsInteger.int? (h : IsInteger cs) (hrest : ∀ c ∈ rest.head?, isDigit c = false) :
    int? (cs ++ rest) = some (cs, rest) := by
  obtain ⟨hsign, hne, hds⟩ := h
  next s ds =>
  obtain ⟨d, ds, rfl⟩ := List.exists_cons_of_ne_nil hne
  have hd := hds d List.mem_cons_self
  have hbody : sign (s ++ (d :: ds ++ rest)) = (s, d :: ds ++ rest) := by
    rcases hsign with rfl | rfl | rfl
    · have hplus : d ≠ '+' := Decimal.isDigit_ne hd (by decide)
      have hminus : d ≠ '-' := Decimal.isDigit_ne hd (by decide)
      simp [sign, hplus, hminus]
    · rfl
    · rfl
  have hsplit : splitWhile isDigit (d :: ds ++ rest) = (d :: ds, rest) := splitWhile_eq hds hrest
  rw [List.append_assoc]
  simp only [Token.int?, hbody, hsplit]

theorem int?_alone (h : int? cs = some (piece, rest)) : int? piece = some (piece, []) := by
  have hnone : ∀ c ∈ ([] : List Char).head?, isDigit c = false := nofun
  have halone := (isInteger_of_int? h).int? hnone
  rwa [List.append_nil] at halone

theorem float?_alone (h : float? cs = some (piece, rest)) : float? piece = some (piece, []) := by
  unfold float? at h
  split at h
  · next whole back hint =>
    have hall : ∀ c ∈ (splitWhile isDigit back).1, isDigit c = true := fun c hc => List.mem_takeWhile_imp hc
    split at h
    · cases h
    · next places back' hne heq =>
      cases h
      rw [heq] at hall
      have hwhole : int? (whole ++ '.' :: places) = some (whole, '.' :: places) := by
        apply (isInteger_of_int? hint).int?
        rintro c ⟨⟩
        rfl
      simp only [float?, hwhole, splitWhile_of_all hall]
  · cases h

theorem closed_of_cons {e : StringEnd} {front body : List Char} (h : e.cons front = .closed body rest) :
    ∃ inner, body = front ++ inner ∧ e = .closed inner rest := by
  cases e with
  | closed inner back =>
    cases h
    exact ⟨inner, rfl, rfl⟩
  | unterminated => cases h
  | broken => cases h

theorem stringEnd_alone {body : List Char} (h : stringEnd cs = .closed body rest) :
    stringEnd body = .closed body [] := by
  induction cs using stringEnd.induct generalizing body with
  | case1 => cases h
  | case2 back =>
    cases h
    rfl
  | case3 => cases h
  | case4 back => cases h
  | case5 c back hc ih =>
    rw [stringEnd, if_neg hc] at h
    obtain ⟨inner, rfl, hinner⟩ := closed_of_cons h
    have hescaped : stringEnd ('\\' :: c :: inner) = (stringEnd inner).cons ['\\', c] := by
      rw [stringEnd, if_neg hc]
    exact hescaped.trans (by rw [ih hinner]; rfl)
  | case6 c back h1 h2 h3 ih =>
    have hbackslash : c ≠ '\\' := by
      rintro rfl
      cases back with
      | nil => exact h2 rfl rfl
      | cons d ds => exact h3 d ds rfl rfl
    rw [stringEnd_of_ne h1 hbackslash] at h
    obtain ⟨inner, rfl, hinner⟩ := closed_of_cons h
    exact (stringEnd_of_ne h1 hbackslash inner).trans (by rw [ih hinner]; rfl)

/-- **A token needs nothing after it.** -/
theorem scan_alone (h : scan cs = .lexeme kind piece rest) (hgap : kind.isGap = false) :
    scan piece = .lexeme kind piece [] := by
  cases lexeme_of_scan h with
  | float hfloat =>
    unfold scan
    rw [float?_alone hfloat]
  | int hint =>
    have hint := int?_alone hint
    have hnone : float? piece = none := by simp only [float?, hint]
    unfold scan
    rw [hnone, hint]
  | symbol hsym =>
    have hname := (isName_of_symbol? hsym).lexes [] stops_nil
    rwa [List.append_nil] at hname
  | string hclosed => rw [scan_quote, scanText, stringEnd_alone hclosed]
  | sign hmem =>
    have hscan := scan_punctuation hmem []
    rwa [List.append_nil] at hscan
  | blank | comment => cases hgap

/-- A token apart from its place. -/
def spelling (t : Token) : TokenKind × String := (t.kind, t.text)

/-- The texts one after another, with white space between any two. -/
inductive Spaced : List String → String → Prop
  | nil : Spaced [] ""
  | single (text : String) : Spaced [text] text
  | cons {text next rest gap : String} {texts : List String} (hgap : IsGap gap.toList)
      (h : Spaced (next :: texts) rest) : Spaced (text :: next :: texts) (text ++ (gap ++ rest))

/-- The text of the token is scanned as the token. -/
structure StandsAlone (t : Token) : Prop where
  token : t.kind.isGap = false
  scan : scan t.text.toList = .lexeme t.kind t.text.toList []

theorem standsAlone_of_mem {pos : Nat} {stray : List Char} {t : Token} (ht : t ∈ tokensFrom pos stray cs) :
    t.kind = .error ∨ t.kind = .eof ∨ t.StandsAlone := by
  refine (mem_tokensFrom ht).imp_right (Or.imp_right ?_)
  rintro ⟨hgap, cs', rest, hscan⟩
  exact ⟨hgap, scan_alone hscan hgap⟩

theorem spelling_tokensFrom (pos : Nat) (cs : List Char) :
    (tokensFrom pos [] cs).map spelling = (tokensFrom 0 [] cs).map spelling := by
  have hshift := tokensFrom_shift pos 0 [] cs
  rw [Nat.add_zero] at hshift
  rw [hshift, List.map_map]
  rfl

theorem spelling_gap (hgap : IsGap gap) (cs : List Char) :
    (tokensFrom 0 [] (gap ++ cs)).map spelling = (tokensFrom 0 [] cs).map spelling := by
  rw [tokensFrom_blanks hgap.nonempty hgap.blank]
  exact spelling_tokensFrom _ cs

theorem IsGap.apart (hgap : IsGap gap) (cs : List Char) : Apart (gap ++ cs) := by
  obtain ⟨c, gap, rfl⟩ := List.exists_cons_of_ne_nil hgap.nonempty
  rintro d ⟨⟩
  exact .inl (isStop_of_isBlank (hgap.blank c List.mem_cons_self))

theorem StandsAlone.spelling_append {t : Token} (h : t.StandsAlone) (hcs : Apart cs) :
    (tokensFrom 0 [] (t.text.toList ++ cs)).map spelling =
      t.spelling :: (tokensFrom 0 [] cs).map spelling := by
  have hscan : Token.scan (t.text.toList ++ cs) = .lexeme t.kind t.text.toList cs := by
    apply scan_append h.scan fun _ => hcs
    rw [h.token]
    nofun
  rw [tokensFrom_lexeme 0 hscan h.token, List.map_cons, spelling_tokensFrom, spelling, String.ofList_toList]
  rfl

theorem spelling_end : (tokensFrom 0 [] []).map spelling = [(.eof, "")] := by
  rw [tokensFrom]
  rfl

theorem StandsAlone.tokenize_text {t : Token} (h : t.StandsAlone) :
    (tokenize t.text).map spelling = [t.spelling, (.eof, "")] := by
  have hnil : Apart [] := nofun
  have halone := h.spelling_append hnil
  rwa [List.append_nil, spelling_end] at halone

theorem tokenize_spaced {ts : List Token} (hts : ∀ t ∈ ts, t.StandsAlone) {s : String}
    (hs : Spaced (ts.map text) s) : (tokenize s).map spelling = ts.map spelling ++ [(.eof, "")] := by
  induction ts generalizing s with
  | nil =>
    cases hs
    exact spelling_end
  | cons t ts ih =>
    obtain ⟨ht, hts⟩ := List.forall_mem_cons.mp hts
    cases ts with
    | nil =>
      cases hs
      exact ht.tokenize_text
    | cons u us =>
      cases hs with
      | cons hgap hrest =>
        next rest gap =>
        rw [tokenize, String.toList_append, String.toList_append, ht.spelling_append (hgap.apart _),
          spelling_gap hgap]
        exact congrArg (t.spelling :: ·) (ih hts hrest)

/-- **White space only separates.** A token of any text that is no error is the one token of its own text.
If no token of a text is an error, then joining the texts of its tokens by white space, whatever it is,
gives a text with the same tokens. -/
theorem tokenize_respaced (src : String) :
    (∀ t ∈ tokenize src, t.kind ≠ .error → t.kind ≠ .eof →
      (tokenize t.text).map spelling = [t.spelling, (.eof, "")]) ∧
    ((∀ t ∈ tokenize src, t.kind ≠ .error) →
      ∀ s, Spaced (((tokenize src).filter (·.kind != .eof)).map text) s →
        (tokenize s).map spelling = (tokenize src).map spelling) := by
  have hall : ∀ t ∈ tokenize src, t.kind ≠ .error → t.kind ≠ .eof → t.StandsAlone :=
    fun t ht herror heof => ((standsAlone_of_mem ht).resolve_left herror).resolve_left heof
  refine ⟨fun t ht herror heof => (hall t ht herror heof).tokenize_text, fun hwhole s hs => ?_⟩
  obtain ⟨ts, gaps, htokens, htiles, -⟩ := tokensFrom_tiles 0 [] src.toList
  have heof (t : Token) (ht : t ∈ ts) : t.kind ≠ .eof := (htiles.token t ht).1
  have hmem (t : Token) (ht : t ∈ ts) : t ∈ tokenize src := by
    rw [tokenize, htokens]
    exact List.mem_append_left _ ht
  have hkept : (tokenize src).filter (·.kind != .eof) = ts := by
    rw [tokenize, htokens, List.filter_append, List.filter_eq_self.mpr fun t ht => by simpa using heof t ht]
    simp
  rw [hkept] at hs
  have halone (t : Token) (ht : t ∈ ts) : t.StandsAlone :=
    hall t (hmem t ht) (hwhole t (hmem t ht)) (heof t ht)
  rw [tokenize_spaced halone hs, tokenize, htokens, List.map_append]
  rfl

/-- Signs before numbers and in operators, and marks in identifiers and in strings: `->-1.5<=x?"';"`. -/
theorem tokenize_respaced_signs :
    let src := "->-1.5<=x?\"';\""
    let s := "-> -1.5\t\n<=\u00a0x? \"';\""
    (∀ t ∈ tokenize src, t.kind ≠ .error) ∧
    Spaced (((tokenize src).filter (·.kind != .eof)).map text) s ∧
    (tokenize s).map spelling = (tokenize src).map spelling := by
  intro src s
  have htokens : tokenize src = [⟨.symbol, "->", ⟨0, 2⟩, false⟩, ⟨.float, "-1.5", ⟨2, 6⟩, false⟩,
      ⟨.symbol, "<=", ⟨6, 8⟩, false⟩, ⟨.symbol, "x?", ⟨8, 10⟩, false⟩,
      ⟨.string, "\"';\"", ⟨10, 14⟩, false⟩, ⟨.eof, "", ⟨14, 14⟩, false⟩] := by
    decide +kernel
  have hwhole : ∀ t ∈ tokenize src, t.kind ≠ .error := by
    rw [htokens]
    decide
  have hspace : IsGap [' '] := isGap_singleton (by decide)
  have hlines : IsGap ['\t', '\n'] := .cons (by decide) (List.forall_mem_singleton.mpr (by decide))
  have hfixed : IsGap ['\u00a0'] := isGap_singleton (by decide)
  have hspaced : Spaced (((tokenize src).filter (·.kind != .eof)).map text) s := by
    rw [htokens]
    change Spaced ["->", "-1.5", "<=", "x?", "\"';\""]
      ("->" ++ (" " ++ ("-1.5" ++ ("\t\n" ++ ("<=" ++ ("\u00a0" ++ ("x?" ++ (" " ++ "\"';\""))))))))
    exact .cons hspace (.cons hlines (.cons hfixed (.cons hspace (.single _))))
  exact ⟨hwhole, hspaced, (tokenize_respaced src).2 hwhole s hspaced⟩

end EventTally.Token
