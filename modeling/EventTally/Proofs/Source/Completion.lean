import EventTally.Proofs.Source.Continuation

/-! # Completing an unfinished text

A text with open brackets and signs is completed by an expression, in case a sign waits for one, and
the closing brackets from the innermost to the outermost (`run_closers`). A string literal without its
end is completed by a quotation mark, or by two if the first one is escaped. Only characters that start
no token and stand right before such a literal cannot be made good (`exists_completion_iff`).
-/

namespace EventTally

namespace Reading

open Token

def closers : List Frame → List Char
  | [] => []
  | .form _ :: frames => ')' :: closers frames
  | .literal b _ _ :: frames => b.closer.toList ++ closers frames
  | .quote :: frames => closers frames
  | .pin :: frames => closers frames

theorem tokensFrom_punctuation {text : String} {kind : TokenKind}
    (h : (text, kind) ∈ punctuation) (hgap : kind.isGap = false) (pos : Nat) (rest : List Char) :
    ∃ t : Token, t.kind = kind ∧ tokensFrom pos [] (text.toList ++ rest) =
      t :: tokensFrom (pos + Text.byteLength text.toList) [] rest :=
  ⟨_, rfl, tokensFrom_lexeme pos (scan_punctuation h rest) hgap⟩

/-- After an expression the closing brackets complete everything. -/
theorem run_closers (e : Expr) (frames : List Frame) (trees : List Expr) (pos : Nat) :
    ∃ r, (push e frames trees).run (tokensFrom pos [] (closers frames)) = (r, none) := by
  induction frames generalizing e pos with
  | nil =>
    obtain ⟨eof, heof, htokens⟩ := tokensFrom_nil pos
    have hend := run_eof (push e [] trees) [] heof
    refine ⟨(push e [] trees).run [eof] |>.1, ?_⟩
    rw [closers, htokens]
    exact Prod.ext rfl (hend.2.mpr ⟨rfl, rfl⟩)
  | cons f frames ih =>
    cases f with
    | form done =>
      have hmem : (")", TokenKind.closeParen) ∈ punctuation := by decide
      obtain ⟨t, hkind, htokens⟩ := tokensFrom_punctuation hmem rfl pos (closers frames)
      change ∃ r, run _ (tokensFrom pos [] (")".toList ++ closers frames)) = (r, none)
      rw [htokens, push, run_cons (close_form hkind _ _ _)]
      exact ih _ _
    | literal b done pending =>
      have hmem : (b.closer, b.closerKind) ∈ punctuation := by
        cases b <;> decide
      obtain ⟨t, hkind, htokens⟩ :=
        tokensFrom_punctuation hmem (by cases b <;> rfl) pos (closers frames)
      rw [closers, htokens, push, run_cons (close_literal b hkind _ _ _)]
      exact ih _ _
    | quote => exact ih e.quoted pos
    | pin => exact ih e.pinned pos

theorem run_empty_form (r : Reading) (pos : Nat) :
    ∃ r', r.run (tokensFrom pos [] ('(' :: ')' :: closers r.frames)) = (r', none) := by
  have hopener : ("(", TokenKind.openParen) ∈ punctuation := by decide
  have hcloser : (")", TokenKind.closeParen) ∈ punctuation := by decide
  obtain ⟨opener, hopen, htokens⟩ :=
    tokensFrom_punctuation hopener rfl pos (')' :: closers r.frames)
  have henter : r.step opener = .ok (r.enter (.form [])) := by
    unfold step
    rw [hopen]
  obtain ⟨closer, hclose, htokens'⟩ :=
    tokensFrom_punctuation hcloser rfl (pos + Text.byteLength "(".toList) (closers r.frames)
  change ∃ r', r.run (tokensFrom pos [] ("(".toList ++ (')' :: closers r.frames))) = (r', none)
  rw [htokens, run_cons henter]
  change ∃ r', run _ (tokensFrom _ [] (")".toList ++ closers r.frames)) = (r', none)
  rw [htokens', enter, run_cons (close_form hclose _ _ _)]
  exact run_closers _ _ _ _

theorem exists_string_end {body : List Char} (h : stringEnd body = .unterminated) :
    ∃ ending, ∀ x, stringEnd (body ++ '"' :: (ending ++ x)) =
      .closed (body ++ '"' :: ending) x := by
  obtain ⟨front, hfront, rfl | rfl⟩ := split_of_unterminated h
  · refine ⟨[], fun x => ?_⟩
    rw [hfront]
    rfl
  · refine ⟨['"'], fun x => ?_⟩
    rw [List.append_assoc, hfront, List.append_assoc]
    rfl

theorem exists_string_completion {tail : List Char} (h : scan tail = .unterminated) (r : Reading)
    (pos : Nat) : ∃ x, Apart x ∧ ∃ r', r.run (tokensFrom pos [] (tail ++ x)) = (r', none) := by
  obtain ⟨body, rfl, hbody⟩ := unterminated_of_scan h
  obtain ⟨ending, hending⟩ := exists_string_end hbody
  refine ⟨'"' :: (ending ++ closers r.frames), .quote _, ?_⟩
  have hscan : scan ('"' :: body ++ '"' :: (ending ++ closers r.frames)) =
      .lexeme .string ('"' :: (body ++ '"' :: ending)) (closers r.frames) := by
    rw [List.cons_append, scan_quote, scanText, hending]
  rw [tokensFrom_lexeme pos hscan rfl, run_cons (step_atom rfl)]
  exact run_closers _ _ _ _

/-- A text that is cut off in a string literal right after stray characters goes wrong there,
however it goes on. -/
theorem run_stray_fault {cs : List Char} {front : List Token} {start : Nat} {loose tail : List Char}
    (hcut : Cut 0 [] cs front start loose tail) (hloose : loose ≠ []) (x : List Char) :
    (Reading.start.run (tokensFrom 0 [] (cs ++ x))).2 ≠ none := by
  rw [hcut.append x (.inl hloose), run_append]
  split
  · next r hrun =>
    obtain ⟨f, hfault⟩ := run_loose r start hloose (tail ++ x)
    rw [hfault]
    nofun
  · nofun

end Reading

open Token Reading in
/-- A partial error can be made good by more text if and only if it is not about text that starts no
token before a string literal without its end. -/
theorem exists_completion_iff (src : Source) {e : ParseError} (h : src.parse? = .error e)
    (he : e.isPartial = true) :
    (∃ more es, ({ src with code := src.code ++ more } : Source).parse? = .ok es) ↔
      ∀ text b, e.fault = .unrecognized text b → text.toList.head? = some '"' := by
  have hparse (more : String) : (∃ es, ({ src with code := src.code ++ more } : Source).parse? = .ok es) ↔
      (Reading.start.run (tokensFrom 0 [] (src.code.toList ++ more.toList))).2 = none := by
    rw [Source.parse?_eq, tokenize, String.toList_append]
    rcases Reading.start.run (tokensFrom 0 [] (src.code.toList ++ more.toList)) with ⟨r, _ | f⟩
    · simp
    · simp
  obtain ⟨r, f, hrun, rfl⟩ := Source.parse?_eq_error.mp h
  have hfault : (src.locate f).fault = f.fault := rfl
  rw [hfault]
  simp only [hparse]
  unfold tokenize at hrun
  cases Reading.ends src.code.toList with
  | whole front eof heof hfront htokens hmore =>
    -- The text ends too early: what is open is closed on a new line.
    rw [htokens, run_append] at hrun
    split at hrun
    · next r' hfrontRun =>
      have hstep : r'.step eof =
          if r'.frames.isEmpty then .ok r' else .error ⟨.endOfInput, eof.span⟩ := by
        unfold Reading.step
        rw [heof]
      split at hstep
      · rw [run_cons hstep] at hrun
        cases hrun
      · rw [run_error hstep] at hrun
        cases hrun
        refine iff_of_true ⟨String.ofList ('\n' :: '(' :: ')' :: closers r.frames), ?_⟩ ?_
        · obtain ⟨r'', hclosed⟩ := run_empty_form r (Text.byteLength src.code.toList + 1)
          rw [String.toList_ofList, hmore, ← tokensFrom_shift, run_append, hfrontRun]
          exact congrArg Prod.snd hclosed
        · rintro text b ⟨⟩
    · next r' f' hfrontRun =>
      cases hrun
      have hwhole := run_fault hfront (congrArg Prod.snd hfrontRun)
      exact absurd he (Bool.eq_false_iff.mp hwhole)
  | cut front start run tail hfront hcut hstray =>
    obtain ⟨eof, hend⟩ := tokensFrom_of_unterminated hcut.scan start run.reverse
    have htokens := hcut.tokens
    rw [hend, List.reverse_reverse] at htokens
    rw [htokens, run_append] at hrun
    split at hrun
    · next r' hfrontRun =>
      cases hrun
      cases run with
      | nil =>
        refine iff_of_true ?_ ?_
        · obtain ⟨x, hx, r'', hclosed⟩ := exists_string_completion hcut.scan r start
          refine ⟨String.ofList x, ?_⟩
          rw [String.toList_ofList, hcut.append x (.inr hx), run_append, hfrontRun]
          exact congrArg Prod.snd hclosed
        · rintro text b ⟨⟩
          obtain ⟨body, rfl, -⟩ := unterminated_of_scan hcut.scan
          rw [String.toList_ofList]
          rfl
      | cons c run =>
        refine iff_of_false ?_ fun hquote => ?_
        · rintro ⟨more, hmore⟩
          exact run_stray_fault hcut (by simp) more.toList hmore
        · have hhead := hquote _ _ rfl
          rw [String.toList_ofList] at hhead
          exact hstray.head_ne hcut.scan (Option.some.inj hhead)
    · next r' f' hfrontRun =>
      cases hrun
      have hwhole := run_fault hfront (congrArg Prod.snd hfrontRun)
      exact absurd he (Bool.eq_false_iff.mp hwhole)

/-- Open brackets, a spread sign, a quote sign and a string literal that ends in a backslash. -/
theorem exists_completion_iff_string :
    ∃ e, (Source.mk "code" "(f [&'\"b\\").parse? = .error e ∧ e.isPartial = true ∧
      ∃ more es, (Source.mk "code" ("(f [&'\"b\\" ++ more)).parse? = .ok es := by
  let e : ParseError := ⟨⟨"code", "(f [&'\"b\\"⟩, .unrecognized "\"b\\" true, ⟨6, 9⟩⟩
  have h : (Source.mk "code" "(f [&'\"b\\").parse? = .error e := by
    cbv
  refine ⟨e, h, rfl, (exists_completion_iff _ h rfl).mpr ?_⟩
  rintro text b ⟨⟩
  decide

end EventTally
