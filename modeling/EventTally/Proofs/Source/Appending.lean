import EventTally.Proofs.Source.Lexing

/-! # Lexing a text that goes on

A lexeme stays what it is when text is put after its text, unless it can go on into the new text. It
cannot if that is empty or starts with white space, a closing bracket or a quotation mark (`Apart`),
nor if two characters stand between (`scan_append`). Characters that start no token still start none
(`scan_append_stray`).
-/

namespace EventTally.Token

/-- No token goes on into the text. -/
def Apart (x : List Char) : Prop := ∀ c ∈ x.head?, isStop c = true ∨ c = '"'

namespace Apart

variable {x : List Char}

theorem newline (cs : List Char) : Apart ('\n' :: cs) := by
  rintro c ⟨⟩
  exact .inl (by decide)

theorem quote (cs : List Char) : Apart ('"' :: cs) := by
  rintro c ⟨⟩
  exact .inr rfl

theorem head (hx : Apart x) {p : Char → Bool} (hp : ∀ c, p c = true → goesOn c = true) :
    ∀ c ∈ x.head?, p c = false := by
  intro c hc
  rcases hx c hc with hstop | rfl
  · by_contra hpc
    have hgo := hp c (Bool.eq_true_of_not_eq_false hpc)
    rw [goesOn_of_isStop hstop] at hgo
    cases hgo
  · by_contra hpc
    have hgo := hp '"' (Bool.eq_true_of_not_eq_false hpc)
    revert hgo
    decide

theorem head_ne (hx : Apart x) {c : Char} (hstop : isStop c = false) (hquote : c ≠ '"') :
    x.head? ≠ some c := by
  intro hc
  rcases hx c hc with h | h
  · rw [hstop] at h
    cases h
  · exact hquote h

end Apart

variable {cs piece rest x : List Char} {kind : TokenKind}

theorem splitWhile_append_right {p : Char → Bool} {front back : List Char}
    (h : splitWhile p cs = (front, back)) (hx : back = [] → ∀ c ∈ x.head?, p c = false) :
    splitWhile p (cs ++ x) = (front, back ++ x) := by
  obtain ⟨rfl, rfl⟩ := Prod.mk.inj h
  have hfront : ∀ c ∈ cs.takeWhile p, p c = true := fun c hc => List.mem_takeWhile_imp hc
  have hback : ∀ c ∈ (cs.dropWhile p ++ x).head?, p c = false := by
    cases hdrop : cs.dropWhile p with
    | nil => exact hx hdrop
    | cons d ds =>
      rintro c ⟨⟩
      have hd := List.head?_dropWhile_not p cs
      rw [hdrop] at hd
      simpa using hd
  have hsplit := splitWhile_eq hfront hback
  rwa [← List.append_assoc, List.takeWhile_append_dropWhile] at hsplit

theorem sign_append_right (hcs : cs ≠ []) (x : List Char) :
    sign (cs ++ x) = ((sign cs).1, (sign cs).2 ++ x) := by
  obtain ⟨c, cs, rfl⟩ := List.exists_cons_of_ne_nil hcs
  by_cases hplus : c = '+'
  · subst hplus
    rfl
  · by_cases hminus : c = '-'
    · subst hminus
      rfl
    · simp [sign, hplus, hminus]

theorem int?_append (h : int? cs = some (piece, rest))
    (hx : rest = [] → ∀ c ∈ x.head?, isDigit c = false) : int? (cs ++ x) = some (piece, rest ++ x) := by
  have hcs : cs ≠ [] := by
    rintro rfl
    cases h
  unfold int? at h ⊢
  rw [sign_append_right hcs]
  dsimp only at h ⊢
  split at h
  · cases h
  · next digits back hne heq =>
    cases h
    rw [splitWhile_append_right heq hx]
    split
    · next h' => exact absurd (Prod.mk.inj h').1 hne
    · next h' =>
      cases h'
      rfl

theorem int?_append_none (h : int? cs = none) (hcs : cs ≠ []) (hx : cs.length < 2 → Apart x) :
    int? (cs ++ x) = none := by
  have hlength : (sign cs).1.length ≤ 1 := by
    unfold sign
    split <;> simp
  apply int?_eq_none
  rw [sign_append_right hcs]
  cases hbody : (sign cs).2 with
  | nil =>
    have hsplit := congrArg List.length (sign_append cs)
    rw [hbody, List.append_nil] at hsplit
    exact (hx (by omega)).head fun _ => isDigit_goesOn
  | cons d ds =>
    rintro c ⟨⟩
    by_contra hd
    have hd := Bool.eq_true_of_not_eq_false hd
    simp [int?, hbody, splitWhile, hd] at h

theorem float?_append (h : float? cs = some (piece, rest))
    (hx : rest = [] → ∀ c ∈ x.head?, isDigit c = false) :
    float? (cs ++ x) = some (piece, rest ++ x) := by
  unfold float? at h
  split at h
  · next whole back hint =>
    split at h
    · cases h
    · next places back' hne heq =>
      cases h
      have hsplit := splitWhile_append_right heq hx
      unfold float?
      rw [int?_append hint fun h => by cases h]
      simp only [List.cons_append, hsplit]
  · cases h

theorem float?_of_int?_none (h : int? cs = none) : float? cs = none := by
  unfold float?
  rw [h]

theorem float?_append_none (h : float? cs = none) (hint : int? cs = some (piece, rest))
    (hx : rest.length < 2 → Apart x) : float? (cs ++ x) = none := by
  have hdigit (hlt : rest.length < 2) : ∀ c ∈ x.head?, isDigit c = false :=
    (hx hlt).head fun _ => isDigit_goesOn
  have hlong : int? (cs ++ x) = some (piece, rest ++ x) :=
    int?_append hint fun hnil => hdigit (by simp [hnil])
  unfold float? at h ⊢
  rw [hint] at h
  rw [hlong]
  cases rest with
  | nil =>
    split
    · next heq =>
      cases heq
      exact absurd rfl ((hx (by simp)).head_ne (c := '.') (by decide) (by decide))
    · rfl
  | cons d ds =>
    by_cases hpoint : d = '.'
    · subst hpoint
      have hplaces : ∀ c ∈ (ds ++ x).head?, isDigit c = false := by
        cases ds with
        | nil => exact hdigit (by simp)
        | cons d ds =>
          rintro c ⟨⟩
          by_contra hd
          simp [splitWhile, Bool.eq_true_of_not_eq_false hd] at h
      have hsplit : splitWhile isDigit (ds ++ x) = ([], ds ++ x) :=
        @splitWhile_eq isDigit [] _ (by simp) hplaces
      simp [hsplit]
    · simp [hpoint]

theorem literal?_append {op : List Char}
    (h : op.length ≤ cs.length ∨ ∀ c ∈ x.head?, c ∉ op) :
    literal? op (cs ++ x) = (literal? op cs).map fun s => (s.1, s.2 ++ x) := by
  induction op generalizing cs with
  | nil => rfl
  | cons p ps ih =>
    cases cs with
    | nil =>
      have hout : ∀ c ∈ x.head?, c ∉ p :: ps := h.resolve_left (by simp)
      cases x with
      | nil => rfl
      | cons a x =>
        have hne : p ≠ a := fun hpa => hout a rfl (by simp [hpa])
        simp [literal?, hne]
    | cons c cs =>
      have hrest : ps.length ≤ cs.length ∨ ∀ c ∈ x.head?, c ∉ ps :=
        h.imp Nat.le_of_succ_le_succ fun h d hd hps => h d hd (List.mem_cons_of_mem _ hps)
      by_cases hpc : p = c
      · simp [literal?, hpc, ih hrest]
        rfl
      · simp [literal?, hpc]

/-- Signs have at most two characters, and no text that stands apart goes on in one. -/
def IsSign (op : List Char) : Prop :=
  op.length ≤ 1 ∨ op.length = 2 ∧ op.all (fun d => !isStop d && d != '"') = true

instance (op : List Char) : Decidable (IsSign op) :=
  inferInstanceAs (Decidable (_ ∨ _))

theorem IsSign.literal?_append {op : List Char} (hop : IsSign op) (hcs : cs ≠ [])
    (hx : cs.length < 2 → Apart x) :
    literal? op (cs ++ x) = (literal? op cs).map fun s => (s.1, s.2 ++ x) := by
  apply Token.literal?_append
  have hpos := List.length_pos_iff.mpr hcs
  rcases hop with hop | ⟨hop, hout⟩
  · exact .inl (by omega)
  · by_cases hlt : cs.length < 2
    · refine .inr fun c hc hmem => ?_
      have hc' := List.all_eq_true.mp hout c hmem
      simp only [Bool.and_eq_true, Bool.not_eq_true', bne_iff_ne] at hc'
      exact (hx hlt).head_ne hc'.1 hc'.2 hc
    · exact .inl (by omega)

theorem findSome?_map {α β γ : Type} {f : α → Option β} {g : α → Option γ} (k : β → γ) (l : List α)
    (h : ∀ a ∈ l, g a = (f a).map k) : l.findSome? g = (l.findSome? f).map k := by
  induction l with
  | nil => rfl
  | cons a l ih =>
    have ha := h a List.mem_cons_self
    rw [List.findSome?_cons, List.findSome?_cons, ha,
      ih fun b hb => h b (List.mem_cons_of_mem _ hb)]
    cases f a <;> rfl

theorem operator?_append (hcs : cs ≠ []) (hx : cs.length < 2 → Apart x) :
    operator? (cs ++ x) = (operator? cs).map fun s => (s.1, s.2 ++ x) := by
  have hsigns : ∀ op ∈ operators, IsSign op.toList := by decide
  exact findSome?_map _ _ fun op hop => (hsigns op hop).literal?_append hcs hx

theorem punctuation?_append (hcs : cs ≠ []) (hx : cs.length < 2 → Apart x) :
    punctuation? (cs ++ x) = (punctuation? cs).map fun s => (s.1, s.2.1, s.2.2 ++ x) := by
  have hsigns : ∀ p ∈ punctuation, IsSign p.1.toList := by decide
  refine findSome?_map _ _ fun p hp => ?_
  dsimp only
  rw [(hsigns p hp).literal?_append hcs hx, Option.map_map, Option.map_map]
  rfl

theorem ident?_append (h : ident? cs = some (piece, rest)) (hx : rest = [] → Apart x) :
    ident? (cs ++ x) = some (piece, rest ++ x) := by
  cases cs with
  | nil => cases h
  | cons c cs =>
    unfold ident? at h
    simp only at h
    split at h
    · next hc =>
      have hident {back : List Char} (hback : back = [] → Apart x) (body : List Char)
          (heq : splitWhile isIdentChar cs = (body, back)) :
          splitWhile isIdentChar (cs ++ x) = (body, back ++ x) :=
        splitWhile_append_right heq fun hnil => (hback hnil).head fun d hd => by simp [goesOn, hd]
      split at h
      · next body back heq =>
        cases h
        simp [ident?, hc, hident (by simp) body heq]
      · next body back heq =>
        cases h
        simp [ident?, hc, hident (by simp) body heq]
      · next body back hask hbang heq =>
        cases h
        simp only [List.cons_append, ident?, hc, if_true, hident hx body heq]
        cases rest with
        | nil =>
          split
          · next h' =>
            cases h'
            exact absurd rfl ((hx rfl).head_ne (c := '?') (by decide) (by decide))
          · next h' =>
            cases h'
            exact absurd rfl ((hx rfl).head_ne (c := '!') (by decide) (by decide))
          · next h' =>
            cases h'
            rfl
        | cons d ds =>
          have hd : d ≠ '?' ∧ d ≠ '!' := by
            refine ⟨?_, ?_⟩
            · rintro rfl
              exact hask _ rfl
            · rintro rfl
              exact hbang _ rfl
          simp [hd.1, hd.2]
    · cases h

theorem ident?_append_none (h : ident? cs = none) (hcs : cs ≠ []) : ident? (cs ++ x) = none := by
  obtain ⟨c, cs, rfl⟩ := List.exists_cons_of_ne_nil hcs
  unfold ident? at h ⊢
  simp only [List.cons_append] at h ⊢
  split at h
  · split at h <;> cases h
  · next hc => rw [if_neg hc]

theorem symbol?_append (h : symbol? cs = some (piece, rest)) (hx : rest.length < 2 → Apart x) :
    symbol? (cs ++ x) = some (piece, rest ++ x) := by
  obtain ⟨hsplit, hpiece⟩ := symbol?_eq_some h
  have hcs : cs ≠ [] := by
    rw [hsplit]
    exact List.append_ne_nil_of_left_ne_nil hpiece _
  have hlong : cs.length < 2 → Apart x := by
    intro hlt
    rw [hsplit, List.length_append] at hlt
    exact hx (by omega)
  unfold symbol? at h ⊢
  rw [operator?_append hcs hlong]
  cases hop : operator? cs with
  | some s =>
    rw [hop] at h
    cases h
    rfl
  | none =>
    rw [hop] at h
    rw [Option.map_none, Option.none_or]
    exact ident?_append h fun hnil => hx (by simp [hnil])

theorem symbol?_append_none (h : symbol? cs = none) (hcs : cs ≠ [])
    (hx : cs.length < 2 → Apart x) : symbol? (cs ++ x) = none := by
  obtain ⟨hop, hident⟩ := Option.or_eq_none_iff.mp h
  unfold symbol?
  rw [operator?_append hcs hx, hop, ident?_append_none hident hcs]
  rfl

theorem stringEnd_of_ne {c : Char} (hquote : c ≠ '"') (hback : c ≠ '\\') (cs : List Char) :
    stringEnd (c :: cs) = (stringEnd cs).cons [c] := by
  rw [stringEnd]
  · exact hquote
  · exact fun h _ => hback h
  · exact fun _ _ h _ => hback h

theorem stringEnd_append (cs x : List Char) :
    (∀ body rest, stringEnd cs = .closed body rest → stringEnd (cs ++ x) = .closed body (rest ++ x)) ∧
      (stringEnd cs = .broken → stringEnd (cs ++ x) = .broken) := by
  have hcons (front : List Char) (e : StringEnd) :
      (∀ body rest, e.cons front = .closed body rest ↔ ∃ b, body = front ++ b ∧ e = .closed b rest) ∧
      (e.cons front = .broken ↔ e = .broken) := by
    cases e <;> simp [StringEnd.cons, eq_comm]
  induction cs using stringEnd.induct with
  | case1 => exact ⟨fun _ _ h => (by cases h), fun h => (by cases h)⟩
  | case2 rest =>
    refine ⟨fun body r h => ?_, fun h => by cases h⟩
    cases h
    rfl
  | case3 => exact ⟨fun _ _ h => (by cases h), fun h => (by cases h)⟩
  | case4 rest => exact ⟨fun _ _ h => (by cases h), fun _ => rfl⟩
  | case5 c rest hc ih =>
    have hlong : stringEnd ('\\' :: c :: rest ++ x) = (stringEnd (rest ++ x)).cons ['\\', c] := by
      simp [stringEnd, hc]
    rw [hlong, stringEnd, if_neg hc]
    refine ⟨fun body r h => ?_, fun h => ?_⟩
    · obtain ⟨b, rfl, hend⟩ := ((hcons _ _).1 _ _).mp h
      rw [ih.1 b r hend]
      rfl
    · rw [ih.2 ((hcons _ _).2.mp h)]
      rfl
  | case6 c rest h1 h2 h3 ih =>
    have hback : c ≠ '\\' := by
      rintro rfl
      cases rest with
      | nil => exact h2 rfl rfl
      | cons d ds => exact h3 d ds rfl rfl
    rw [List.cons_append, stringEnd_of_ne h1 hback, stringEnd_of_ne h1 hback]
    refine ⟨fun body r h => ?_, fun h => ?_⟩
    · obtain ⟨b, rfl, hend⟩ := ((hcons _ _).1 _ _).mp h
      rw [ih.1 b r hend]
      rfl
    · rw [ih.2 ((hcons _ _).2.mp h)]
      rfl

theorem blank?_append (h : blank? cs = some (piece, rest)) (hrest : rest ≠ []) :
    blank? (cs ++ x) = some (piece, rest ++ x) := by
  unfold blank? at h ⊢
  split at h
  · cases h
  · next hne =>
    obtain hsplit := Option.some.inj h
    rw [splitWhile_append_right hsplit fun hnil => absurd hnil hrest]
    split
    · next h' =>
      cases h'
      exact absurd hsplit (hne rest)
    · rfl

theorem blank?_append_none (h : blank? cs = none) (hcs : cs ≠ []) : blank? (cs ++ x) = none := by
  obtain ⟨c, cs, rfl⟩ := List.exists_cons_of_ne_nil hcs
  have hc : Text.isBlank c = false := by
    by_contra hc
    simp [blank?, splitWhile, Bool.eq_true_of_not_eq_false hc] at h
  simp [blank?, splitWhile, hc]

theorem comment?_append (h : comment? cs = some (piece, rest)) (hrest : rest ≠ []) :
    comment? (cs ++ x) = some (piece, rest ++ x) := by
  unfold comment? at h
  split at h
  · next cs =>
    split at h
    · next body back heq =>
      cases h
      simp [comment?, splitWhile_append_right heq fun hnil => by cases hnil]
    · next body back hfeed heq =>
      cases h
      have hlong := splitWhile_append_right (x := x) heq fun hnil => absurd hnil hrest
      obtain ⟨d, ds, rfl⟩ := List.exists_cons_of_ne_nil hrest
      have hd : d ≠ '\n' := by
        rintro rfl
        exact hfeed _ rfl
      simp [comment?, hlong, hd]
  · cases h

theorem comment?_append_none (h : comment? cs = none) (hcs : cs ≠ []) :
    comment? (cs ++ x) = none := by
  obtain ⟨c, cs, rfl⟩ := List.exists_cons_of_ne_nil hcs
  have hc : c ≠ ';' := by
    rintro rfl
    unfold comment? at h
    split at h
    · split at h <;> cases h
    · next hne => exact hne _ rfl
  simp [comment?, hc]

theorem scanText_of_ne {c : Char} (hc : c ≠ '"') (cs : List Char) :
    scanText (c :: cs) = scanMark (c :: cs) := by
  unfold scanText
  split
  · next h => exact absurd (List.cons.inj h).1 hc
  · rfl

theorem scanMark_append (h : scanMark cs = .lexeme kind piece rest) (hcs : cs ≠ [])
    (hx : cs.length < 2 → Apart x) (hgap : kind.isGap = true → rest ≠ []) :
    scanMark (cs ++ x) = .lexeme kind piece (rest ++ x) := by
  unfold scanMark at h ⊢
  rw [punctuation?_append hcs hx]
  split at h
  · next hpunct =>
    cases h
    rw [hpunct]
    rfl
  · next hpunct =>
    rw [hpunct, Option.map_none]
    split at h
    · next hblank =>
      cases h
      rw [blank?_append hblank (hgap rfl)]
    · next hblank =>
      rw [blank?_append_none hblank hcs]
      split at h
      · next hcomment =>
        cases h
        rw [comment?_append hcomment (hgap rfl)]
      · cases h

theorem scanMark_append_stray (h : scanMark cs = .stray) (hcs : cs ≠ [])
    (hx : cs.length < 2 → Apart x) : scanMark (cs ++ x) = .stray := by
  unfold scanMark at h ⊢
  rw [punctuation?_append hcs hx]
  split at h
  · cases h
  · next hpunct =>
    rw [hpunct, Option.map_none]
    split at h
    · cases h
    · next hblank =>
      rw [blank?_append_none hblank hcs]
      split at h
      · cases h
      · next hcomment => rw [comment?_append_none hcomment hcs]

theorem scanText_append (h : scanText cs = .lexeme kind piece rest) (hcs : cs ≠ [])
    (hx : cs.length < 2 → Apart x) (hgap : kind.isGap = true → rest ≠ []) :
    scanText (cs ++ x) = .lexeme kind piece (rest ++ x) := by
  unfold scanText at h
  split at h
  · next cs =>
    rw [List.cons_append, scanText]
    split at h
    · next hend =>
      cases h
      rw [(stringEnd_append cs x).1 _ _ hend]
    · cases h
    · next hend =>
      rw [(stringEnd_append cs x).2 hend]
      exact scanMark_append h hcs hx hgap
  · next hquote =>
    obtain ⟨c, cs, rfl⟩ := List.exists_cons_of_ne_nil hcs
    rw [List.cons_append, scanText_of_ne fun hc => hquote cs (by rw [hc])]
    exact scanMark_append h hcs hx hgap

theorem scanText_append_stray (h : scanText cs = .stray) (hcs : cs ≠ [])
    (hx : cs.length < 2 → Apart x) : scanText (cs ++ x) = .stray := by
  unfold scanText at h
  split at h
  · next cs =>
    rw [List.cons_append, scanText]
    split at h
    · cases h
    · cases h
    · next hend =>
      rw [(stringEnd_append cs x).2 hend]
      exact scanMark_append_stray h hcs hx
  · next hquote =>
    obtain ⟨c, cs, rfl⟩ := List.exists_cons_of_ne_nil hcs
    rw [List.cons_append, scanText_of_ne fun hc => hquote cs (by rw [hc])]
    exact scanMark_append_stray h hcs hx

theorem scan_append_text (hint : int? cs = none) (hsym : symbol? cs = none) (hcs : cs ≠ [])
    (hx : cs.length < 2 → Apart x) : scan (cs ++ x) = scanText (cs ++ x) := by
  have hint' := int?_append_none hint hcs hx
  unfold scan
  rw [float?_of_int?_none hint', hint', symbol?_append_none hsym hcs hx]

/-- A lexeme stays the same when text is added that it cannot reach. -/
theorem scan_append (h : scan cs = .lexeme kind piece rest) (hx : rest.length < 2 → Apart x)
    (hgap : kind.isGap = true → rest ≠ []) : scan (cs ++ x) = .lexeme kind piece (rest ++ x) := by
  obtain ⟨hsplit, hpiece⟩ := scan_eq_lexeme h
  have hcs : cs ≠ [] := by
    rw [hsplit]
    exact List.append_ne_nil_of_left_ne_nil hpiece _
  have hlong : cs.length < 2 → Apart x := by
    intro hlt
    rw [hsplit, List.length_append] at hlt
    exact hx (by omega)
  have hrest (hnil : rest = []) : ∀ c ∈ x.head?, isDigit c = false :=
    (hx (by simp [hnil])).head fun _ => isDigit_goesOn
  unfold scan at h
  split at h
  · next hfloat =>
    cases h
    unfold scan
    rw [float?_append hfloat hrest]
  · next hfloat =>
    split at h
    · next hint =>
      cases h
      unfold scan
      rw [float?_append_none hfloat hint hx, int?_append hint hrest]
    · next hint =>
      split at h
      · next hsym =>
        cases h
        exact scan_symbol (int?_append_none hint hcs hlong) (symbol?_append hsym hx)
      · next hsym =>
        rw [scan_append_text hint hsym hcs hlong]
        exact scanText_append h hcs hlong hgap

/-- A character that starts no token in front of some text starts none in front of more. -/
theorem scan_append_stray {c : Char} (h : scan (c :: cs) = .stray) (hx : cs = [] → Apart x) :
    scan (c :: cs ++ x) = .stray := by
  have hlong : (c :: cs).length < 2 → Apart x := by
    intro hlt
    exact hx (List.length_eq_zero_iff.mp (by simpa using hlt))
  unfold scan at h
  split at h
  · cases h
  · split at h
    · cases h
    · next hint =>
      split at h
      · cases h
      · next hsym =>
        rw [scan_append_text hint hsym (by simp) hlong]
        exact scanText_append_stray h (by simp) hlong

end EventTally.Token
