import EventTally.Proofs.Source.Appending

/-! # The tokens of a longer text

The tokens of a text are the first tokens of the text with a line feed and more text after it
(`tokensFrom_append_newline`), unless it ends in a string literal without its end. Then the tokens
before the literal stay (`Cut`), and if characters that start no token stand right before the literal,
these stay too, whatever follows.
-/

namespace EventTally

def Span.shift (k : Nat) (s : Span) : Span := ⟨k + s.start, k + s.stop⟩

namespace Token

variable {cs piece rest x : List Char} {kind : TokenKind}

/-- The token `k` bytes later in the text. -/
def shift (k : Nat) (t : Token) : Token := { t with span := t.span.shift k }

theorem tokensFrom_shift (k pos : Nat) (stray cs : List Char) :
    tokensFrom (k + pos) stray cs = (tokensFrom pos stray cs).map (shift k) := by
  have hstrays (pos : Nat) (stray : List Char) :
      strays (k + pos) stray = (strays pos stray).map (shift k) := by
    cases stray with
    | nil => rfl
    | cons c stray => simp [strays, shift, Span.shift, Nat.add_assoc]
  fun_induction tokensFrom pos stray cs with
  | case1 pos stray =>
    rw [tokensFrom, hstrays, List.map_append]
    simp only [shift, Span.shift, List.map_cons, List.map_nil, Nat.add_assoc]
    rfl
  | case2 pos stray c tail start kind piece rest h stop token ih =>
    rw [tokensFrom_of_lexeme h, hstrays, List.map_append, List.map_append, ← ih]
    have hstop : k + pos + Text.byteLength stray + Text.byteLength piece = k + stop := by
      omega
    rw [hstop]
    cases kind.isGap with
    | true => rfl
    | false => simp [shift, Span.shift, token, start, stop, Nat.add_assoc]
  | case3 pos stray c tail start h stop =>
    rw [tokensFrom_of_literal h]
    simp [shift, Span.shift, stop, start, Nat.add_assoc]
  | case4 pos stray c tail h ih => rw [tokensFrom_of_stray h, ih]

theorem tokensFrom_skip (pos : Nat) (cs : List Char) :
    tokensFrom pos [] cs = tokensFrom (pos + Text.byteLength (cs.takeWhile Text.isBlank)) []
      (cs.dropWhile Text.isBlank) := by
  cases cs with
  | nil => rfl
  | cons c cs =>
    by_cases hc : Text.isBlank c = true
    · rw [tokensFrom_of_lexeme (scan_blank hc cs)]
      simp [hc, strays, TokenKind.isGap]
    · simp [hc]

theorem tokensFrom_newline (pos : Nat) (cs : List Char) :
    tokensFrom pos [] ('\n' :: cs) = (tokensFrom 0 [] cs).map (shift (pos + 1)) := by
  have hblank : Text.isBlank '\n' = true := by decide
  have hsize : Char.utf8Size '\n' = 1 := by decide
  rw [← tokensFrom_shift, Nat.add_zero, tokensFrom_skip, tokensFrom_skip (pos + 1)]
  simp [hblank, hsize, Nat.add_assoc]

theorem tokensFrom_blanks (hcs : cs ≠ []) (hblank : ∀ c ∈ cs, Text.isBlank c = true) (pos : Nat)
    (stray x : List Char) : tokensFrom pos stray (cs ++ x) =
      strays pos stray ++ tokensFrom (pos + Text.byteLength stray + Text.byteLength cs) [] x := by
  obtain ⟨c, cs, rfl⟩ := List.exists_cons_of_ne_nil hcs
  obtain ⟨hc, hcs⟩ := List.forall_mem_cons.mp hblank
  rw [List.cons_append, tokensFrom_of_lexeme (scan_blank hc _), tokensFrom_skip _ x,
    List.takeWhile_append_of_pos hcs, List.dropWhile_append_of_pos hcs]
  simp [TokenKind.isGap, Nat.add_assoc]

theorem scan_gap (h : scan cs = .lexeme kind piece rest) (hgap : kind.isGap = true) :
    kind = .blank ∧ blank? cs = some (piece, rest) ∨
      kind = .comment ∧ comment? cs = some (piece, rest) := by
  have hall : ∀ p ∈ punctuation, p.2.isGap = false := by decide
  cases lexeme_of_scan h with
  | float | int | symbol | string => cases hgap
  | sign hmem =>
    rw [hall _ hmem] at hgap
    cases hgap
  | blank hblank => exact .inl ⟨rfl, hblank⟩
  | comment hcomment => exact .inr ⟨rfl, hcomment⟩

theorem scan_of_comment (h : comment? (';' :: cs) = some (piece, rest)) :
    scan (';' :: cs) = .lexeme .comment piece rest := by
  have hscan : scan (';' :: cs) = scanMark (';' :: cs) := rfl
  rw [hscan]
  unfold scanMark
  rw [h]
  rfl

theorem tokensFrom_comment (h : comment? cs = some (piece, [])) (pos : Nat) (stray more : List Char) :
    tokensFrom pos stray (cs ++ '\n' :: more) = strays pos stray ++
      tokensFrom (pos + Text.byteLength stray + Text.byteLength piece) [] ('\n' :: more) := by
  unfold comment? at h
  split at h
  · next cs =>
    split at h
    · next body back heq =>
      cases h
      have hlong := splitWhile_append_right (x := '\n' :: more) heq fun hnil => by cases hnil
      have hcomment : comment? (';' :: (cs ++ '\n' :: more)) =
          some (';' :: body ++ ['\n'], '\n' :: more) := by
        simp [comment?, hlong]
      rw [List.cons_append, tokensFrom_of_lexeme (scan_of_comment hcomment)]
      simp [TokenKind.isGap]
    · next body back hfeed heq =>
      cases h
      have hlong := splitWhile_append_right (x := '\n' :: more) heq fun _ => by
        rintro c ⟨⟩
        rfl
      have hcomment : comment? (';' :: (cs ++ '\n' :: more)) =
          some (';' :: body ++ ['\n'], more) := by
        simp [comment?, hlong]
      have hsize : Char.utf8Size '\n' = 1 := by decide
      rw [List.cons_append, tokensFrom_of_lexeme (scan_of_comment hcomment), tokensFrom_newline,
        ← tokensFrom_shift]
      simp [TokenKind.isGap, hsize, Nat.add_assoc]
  · cases h

theorem tokensFrom_append_lexeme (h : scan cs = .lexeme kind piece rest) (pos : Nat)
    (stray more : List Char) :
    tokensFrom pos stray (cs ++ '\n' :: more) = strays pos stray ++ (if kind.isGap then [] else
      [{ kind, text := String.ofList piece,
         span := ⟨pos + Text.byteLength stray,
           pos + Text.byteLength stray + Text.byteLength piece⟩ }]) ++
      tokensFrom (pos + Text.byteLength stray + Text.byteLength piece) [] (rest ++ '\n' :: more) := by
  by_cases hend : kind.isGap = true ∧ rest = []
  · obtain ⟨hgap, rfl⟩ := hend
    rw [hgap, if_pos rfl, List.append_nil, List.nil_append]
    rcases scan_gap h hgap with ⟨-, hblank⟩ | ⟨-, hcomment⟩
    · obtain ⟨hsplit, hpiece⟩ := blank?_eq_some hblank
      rw [List.append_nil] at hsplit
      subst hsplit
      have hcs : ∀ c ∈ cs, Text.isBlank c = true := by
        intro c hc
        unfold blank? at hblank
        split at hblank
        · cases hblank
        · have htake := congrArg Prod.fst (Option.some.inj hblank)
          rw [← show cs.takeWhile Text.isBlank = cs from htake] at hc
          exact List.mem_takeWhile_imp hc
      exact tokensFrom_blanks hpiece hcs pos stray _
    · exact tokensFrom_comment hcomment pos stray more
  · exact tokensFrom_of_lexeme (scan_append h (fun _ => .newline more)
      fun hgap hnil => hend ⟨hgap, hnil⟩) pos stray

/-- A text without an unterminated string before a line feed: its tokens, and those of the rest. -/
theorem tokensFrom_append_newline (pos : Nat) (stray cs : List Char)
    (h : ∀ t ∈ tokensFrom pos stray cs, t.unterminated = false) :
    ∃ front eof, tokensFrom pos stray cs = front ++ [eof] ∧ ∀ more,
      tokensFrom pos stray (cs ++ '\n' :: more) = front ++
        tokensFrom (pos + Text.byteLength stray + Text.byteLength cs) [] ('\n' :: more) := by
  fun_induction tokensFrom pos stray cs with
  | case1 pos stray =>
    refine ⟨_, _, rfl, fun more => ?_⟩
    have hblank : Text.isBlank '\n' = true := by decide
    rw [List.nil_append, tokensFrom_of_lexeme (scan_blank hblank more),
      tokensFrom_of_lexeme (scan_blank hblank more)]
    simp [strays, TokenKind.isGap]
  | case2 pos stray c tail start kind piece rest hscan stop token ih =>
    obtain ⟨front, eof, heq, hmore⟩ := ih fun t ht => h t (List.mem_append_right _ ht)
    refine ⟨_, eof, by rw [heq, ← List.append_assoc], fun more => ?_⟩
    have hlength := congrArg Text.byteLength (scan_eq_lexeme hscan).1
    rw [Text.byteLength_append] at hlength
    rw [tokensFrom_append_lexeme hscan, hmore, List.append_assoc, List.append_assoc, hlength]
    simp [stop, start, token, Nat.add_assoc]
  | case3 pos stray c tail start hscan stop =>
    cases h _ List.mem_cons_self
  | case4 pos stray c tail hscan ih =>
    obtain ⟨front, eof, heq, hmore⟩ := ih h
    refine ⟨front, eof, heq, fun more => ?_⟩
    have hstray := scan_append_stray (x := '\n' :: more) hscan fun _ => .newline more
    rw [List.cons_append] at hstray ⊢
    rw [tokensFrom_of_stray hstray, hmore]
    simp [Nat.add_assoc, Nat.add_left_comm]

theorem unterminated_of_scan (h : scan cs = .unterminated) :
    ∃ body, cs = '"' :: body ∧ stringEnd body = .unterminated := by
  have hmark (cs : List Char) : scanMark cs ≠ .unterminated := by
    unfold scanMark
    split
    · nofun
    · split
      · nofun
      · split <;> nofun
  unfold scan at h
  split at h
  · cases h
  · split at h
    · cases h
    · split at h
      · cases h
      · unfold scanText at h
        split at h
        · split at h
          · cases h
          · next hend => exact ⟨_, rfl, hend⟩
          · exact absurd h (hmark _)
        · exact absurd h (hmark _)

/-- What stands in a string literal without its end is read character by character, or as escapes; at
the end there may be a lone backslash. -/
theorem split_of_unterminated {body : List Char} (h : stringEnd body = .unterminated) :
    ∃ front, (∀ x, stringEnd (front ++ x) = (stringEnd x).cons front) ∧
      (body = front ∨ body = front ++ ['\\']) := by
  have hnil (e : StringEnd) : e.cons [] = e := by cases e <;> rfl
  have hinner {front : List Char} {e : StringEnd} (h : e.cons front = .unterminated) :
      e = .unterminated := by
    cases e with
    | closed => cases h
    | unterminated => rfl
    | broken => cases h
  have hcons (front front' : List Char) (e : StringEnd) :
      (e.cons front').cons front = e.cons (front ++ front') := by
    cases e <;> simp [StringEnd.cons]
  induction body using stringEnd.induct with
  | case1 => exact ⟨[], fun x => (hnil _).symm, .inl rfl⟩
  | case2 => cases h
  | case3 => exact ⟨[], fun x => (hnil _).symm, .inr rfl⟩
  | case4 => cases h
  | case5 c rest hc ih =>
    rw [stringEnd, if_neg hc] at h
    obtain ⟨front, hfront, hbody⟩ := ih (hinner h)
    refine ⟨'\\' :: c :: front, fun x => ?_, ?_⟩
    · rw [List.cons_append, List.cons_append, stringEnd, if_neg hc, hfront, hcons]
      rfl
    · rcases hbody with rfl | rfl
      · exact .inl rfl
      · exact .inr rfl
  | case6 c rest h1 h2 h3 ih =>
    have hback : c ≠ '\\' := by
      rintro rfl
      cases rest with
      | nil => exact h2 rfl rfl
      | cons d ds => exact h3 d ds rfl rfl
    rw [stringEnd_of_ne h1 hback] at h
    obtain ⟨front, hfront, hbody⟩ := ih (hinner h)
    refine ⟨c :: front, fun x => ?_, ?_⟩
    · rw [List.cons_append, stringEnd_of_ne h1 hback, hfront, hcons]
      rfl
    · rcases hbody with rfl | rfl
      · exact .inl rfl
      · exact .inr rfl

theorem tokensFrom_of_unterminated (h : scan cs = .unterminated) (pos : Nat) (stray : List Char) :
    ∃ eof, tokensFrom pos stray cs =
      [{ kind := .error, text := String.ofList (stray.reverse ++ cs),
         span := ⟨pos, pos + Text.byteLength stray + Text.byteLength cs⟩, unterminated := true },
        eof] := by
  obtain ⟨body, rfl, -⟩ := unterminated_of_scan h
  exact ⟨_, tokensFrom_of_literal h pos stray⟩

/-- Each character starts no token where it stands before the text. -/
def AllStray : List Char → List Char → Prop
  | [], _ => True
  | c :: run, tail => scan (c :: (run ++ tail)) = .stray ∧ AllStray run tail

/-- A text that ends in the string literal `tail` without its end: the tokens `front` come before
the stray characters `loose`, given in reverse, that stand right before the literal. They stay the
tokens of longer texts, provided that the literal is not alone or what follows stands apart. -/
structure Cut (pos : Nat) (stray cs : List Char) (front : List Token) (start : Nat)
    (loose tail : List Char) : Prop where
  scan : scan tail = .unterminated
  tokens : tokensFrom pos stray cs = front ++ tokensFrom start loose tail
  whole : ∀ t ∈ front, t.unterminated = false
  append : ∀ x, loose ≠ [] ∨ Apart x →
    tokensFrom pos stray (cs ++ x) = front ++ tokensFrom start loose (tail ++ x)
  strays : ∃ before run base, cs = before ++ (run ++ tail) ∧ loose = run.reverse ++ base ∧
    (before = [] ∧ base = stray ∨ base = []) ∧ AllStray run tail

theorem unterminated_of_mem_front {pos : Nat} {stray : List Char} {token t : Token} {gap : Bool}
    (ht : t ∈ strays pos stray ++ (if gap then [] else [token])) (htoken : token.unterminated = false) :
    t.unterminated = false := by
  rcases List.mem_append.mp ht with ht | ht
  · exact (mem_strays ht).2
  · split at ht
    · cases ht
    · rw [List.mem_singleton.mp ht, htoken]

namespace Cut

variable {pos start : Nat} {stray loose tail : List Char} {front : List Token}

theorem ne_nil (hcut : Cut pos stray cs front start loose tail) : cs ≠ [] := by
  obtain ⟨before, run, base, rfl, -⟩ := hcut.strays
  obtain ⟨body, rfl, -⟩ := unterminated_of_scan hcut.scan
  simp

theorem allStray (hcut : Cut pos [] cs front start loose tail) :
    ∃ before run, cs = before ++ (run ++ tail) ∧ loose = run.reverse ∧ AllStray run tail := by
  obtain ⟨before, run, base, hsplit, hloose, hbase, hrun⟩ := hcut.strays
  obtain rfl : base = [] := hbase.elim And.right id
  rw [List.append_nil] at hloose
  exact ⟨before, run, hsplit, hloose, hrun⟩

theorem literal (h : Token.scan cs = .unterminated) (pos : Nat) (stray : List Char) :
    Cut pos stray cs [] pos stray cs :=
  ⟨h, rfl, nofun, fun _ _ => rfl, [], [], stray, rfl, rfl, .inl ⟨rfl, rfl⟩, trivial⟩

theorem lexeme (h : Token.scan cs = .lexeme kind piece rest)
    (hcut : Cut (pos + Text.byteLength stray + Text.byteLength piece) [] rest front start loose tail) :
    ∃ front', Cut pos stray cs front' start loose tail := by
  obtain ⟨before, run, hsplit, hloose, hrun⟩ := hcut.allStray
  obtain ⟨body, htail, -⟩ := unterminated_of_scan hcut.scan
  let token : Token :=
    { kind, text := String.ofList piece,
      span := ⟨pos + Text.byteLength stray, pos + Text.byteLength stray + Text.byteLength piece⟩ }
  refine ⟨Token.strays pos stray ++ (if kind.isGap then [] else [token]) ++ front,
    hcut.scan, ?_, fun t ht => ?_, fun x hx => ?_, ?_⟩
  · rw [tokensFrom_of_lexeme h, hcut.tokens, List.append_assoc _ front]
  · rcases List.mem_append.mp ht with ht | ht
    · exact unterminated_of_mem_front ht rfl
    · exact hcut.whole t ht
  · have hlong : rest.length < 2 → Apart x := by
      intro hlt
      refine hx.resolve_left fun hne => ?_
      have hpos := List.length_pos_iff.mpr hne
      rw [hloose, List.length_reverse] at hpos
      rw [hsplit, htail] at hlt
      simp only [List.length_append, List.length_cons] at hlt
      omega
    rw [tokensFrom_of_lexeme (scan_append h hlong fun _ => hcut.ne_nil), hcut.append x hx,
      List.append_assoc _ front]
  · refine ⟨piece ++ before, run, [], ?_, ?_, .inr rfl, hrun⟩
    · rw [(scan_eq_lexeme h).1, hsplit, List.append_assoc]
    · rw [hloose, List.append_nil]

theorem stray_cons {c : Char} (h : Token.scan (c :: cs) = .stray)
    (hcut : Cut pos (c :: stray) cs front start loose tail) :
    Cut pos stray (c :: cs) front start loose tail where
  scan := hcut.scan
  tokens := by rw [tokensFrom_of_stray h, hcut.tokens]
  whole := hcut.whole
  append x hx := by
    have hstray := scan_append_stray (x := x) h fun hnil => absurd hnil hcut.ne_nil
    rw [List.cons_append] at hstray ⊢
    rw [tokensFrom_of_stray hstray, hcut.append x hx]
  strays := by
    obtain ⟨before, run, base, hsplit, hloose, hbase, hrun⟩ := hcut.strays
    rcases hbase with ⟨rfl, rfl⟩ | rfl
    · refine ⟨[], c :: run, stray, ?_, ?_, .inl ⟨rfl, rfl⟩, ?_, hrun⟩
      · rw [hsplit]
        rfl
      · rw [hloose]
        simp
      · rwa [hsplit] at h
    · exact ⟨c :: before, run, [], by rw [hsplit]; rfl, hloose, .inr rfl, hrun⟩

end Cut

theorem cut_of_unterminated (pos : Nat) (stray cs : List Char)
    (h : ∃ t ∈ tokensFrom pos stray cs, t.unterminated = true) :
    ∃ front start loose tail, Cut pos stray cs front start loose tail := by
  obtain ⟨t, ht, hun⟩ := h
  have hwhole : t.unterminated ≠ false := Bool.ne_false_iff.mpr hun
  fun_induction tokensFrom pos stray cs with
  | case1 pos stray =>
    rcases List.mem_append.mp ht with ht | ht
    · exact absurd (mem_strays ht).2 hwhole
    · rw [List.mem_singleton.mp ht] at hwhole
      exact absurd rfl hwhole
  | case2 pos stray c tail start kind piece rest hscan stop token ih =>
    rcases List.mem_append.mp ht with ht | ht
    · exact absurd (unterminated_of_mem_front ht rfl) hwhole
    · obtain ⟨front, start', loose, tail', hcut⟩ := ih ht
      obtain ⟨front', hcut'⟩ := hcut.lexeme hscan
      exact ⟨front', start', loose, tail', hcut'⟩
  | case3 pos stray c tail start hscan stop =>
    exact ⟨[], pos, stray, c :: tail, .literal hscan pos stray⟩
  | case4 pos stray c tail hscan ih =>
    obtain ⟨front, start, loose, tail', hcut⟩ := ih ht
    exact ⟨front, start, loose, tail', hcut.stray_cons hscan⟩

theorem cons_ne_broken {front : List Char} {e : StringEnd} (h : e ≠ .broken) :
    e.cons front ≠ .broken := by
  cases e with
  | closed => nofun
  | unterminated => nofun
  | broken => exact absurd rfl h

theorem stringEnd_ne_broken {body : List Char} (hbody : stringEnd body = .unterminated)
    (run : List Char) (h : AllStray run ('"' :: body)) : stringEnd (run ++ '"' :: body) ≠ .broken := by
  induction hn : run.length using Nat.strong_induction_on generalizing run with
  | _ n ih =>
    subst hn
    cases run with
    | nil => nofun
    | cons c run =>
      obtain ⟨-, hrun⟩ := h
      by_cases hquote : c = '"'
      · subst hquote
        nofun
      · by_cases hback : c = '\\'
        · subst hback
          cases run with
          | nil =>
            have hend : stringEnd ('\\' :: '"' :: body) = (stringEnd body).cons ['\\', '"'] := rfl
            rw [List.cons_append, List.nil_append, hend, hbody]
            nofun
          | cons d run =>
            obtain ⟨hd, hrun⟩ := hrun
            have hfeed : d ≠ '\n' := by
              rintro rfl
              rw [scan_blank (by decide)] at hd
              cases hd
            rw [List.cons_append, List.cons_append, stringEnd, if_neg hfeed]
            exact cons_ne_broken (ih run.length (by simp) run hrun rfl)
        · rw [List.cons_append, stringEnd_of_ne hquote hback]
          exact cons_ne_broken (ih run.length (by simp) run hrun rfl)

theorem AllStray.head_ne {c : Char} {run tail : List Char} (h : AllStray (c :: run) tail)
    (htail : scan tail = .unterminated) : c ≠ '"' := by
  rintro rfl
  obtain ⟨body, rfl, hbody⟩ := unterminated_of_scan htail
  obtain ⟨hscan, hrun⟩ := h
  rw [scan_quote, scanText] at hscan
  split at hscan
  · cases hscan
  · cases hscan
  · next hend => exact stringEnd_ne_broken hbody run hrun hend

end Token

end EventTally
