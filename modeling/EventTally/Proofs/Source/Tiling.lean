import EventTally.Proofs.Source.LongerText
import EventTally.Proofs.Source.Parsing
import EventTally.Shell.Script

/-! # Tokens tile the text

Between the tokens of a text there is nothing but white space and comments (`Tiles`), and the scan for
comments finds one if and only if there is one between tokens (`tokensFrom_tiles`). So formatting, which
refuses comments, drops only white space. The parser faults at a token, or at a spread sign that waits for its
expression (`Waits.step`), so within the text (`tokens_tile`).
-/

namespace EventTally

namespace Token

/-- White space and comments, and whether there are comments. A comment goes on to the end of its line;
a `final` gap is at the end of the text, where the last comment may end too. -/
inductive Gap (final : Bool) : Bool → List Char → Prop
  | nil : Gap final false []
  | blank {c : Char} {cs : List Char} {commented : Bool} (hc : Text.isBlank c = true)
      (h : Gap final commented cs) : Gap final commented (c :: cs)
  | comment {body cs : List Char} {commented : Bool} (hbody : '\n' ∉ body)
      (h : Gap final commented cs) : Gap final true (';' :: (body ++ '\n' :: cs))
  | last {body : List Char} (hfinal : final = true) (hbody : '\n' ∉ body) : Gap final true (';' :: body)

/-- The tokens `ts` with the gaps around them are the text `cs`, which starts at byte `pos`. -/
inductive Tiles : Nat → List Char → List Token → List (List Char × Bool) → Prop
  | last {pos : Nat} {gap : List Char} {commented : Bool} (hgap : Gap true commented gap) :
      Tiles pos gap [] [(gap, commented)]
  | cons {pos : Nat} {gap rest : List Char} {commented : Bool} {t : Token} {ts : List Token}
      {gaps : List (List Char × Bool)} (hgap : Gap false commented gap)
      (hkind : t.kind ≠ .eof ∧ t.kind.isGap = false) (htext : t.text.toList ≠ [])
      (hspan : t.span = ⟨pos + Text.byteLength gap,
        pos + Text.byteLength gap + Text.byteLength t.text.toList⟩)
      (hrest : Tiles t.span.stop rest ts gaps) :
      Tiles pos (gap ++ (t.text.toList ++ rest)) (t :: ts) ((gap, commented) :: gaps)

variable {final commented commented' : Bool} {gap gap' cs piece rest stray : List Char} {pos : Nat}
  {ts : List Token} {gaps : List (List Char × Bool)} {kind : TokenKind}

theorem byteLength_reverse (cs : List Char) : Text.byteLength cs.reverse = Text.byteLength cs := by
  induction cs with
  | nil => rfl
  | cons c cs ih =>
    rw [List.reverse_cons, Text.byteLength_append, ih, Nat.add_comm]
    rfl

theorem Gap.append (h : Gap false commented gap) (h' : Gap final commented' gap') :
    Gap final (commented || commented') (gap ++ gap') := by
  induction h with
  | nil => exact h'
  | blank hc _ ih => exact .blank hc ih
  | comment hbody _ ih =>
    rw [List.cons_append, List.append_assoc, List.cons_append]
    exact .comment hbody ih
  | last hfinal => cases hfinal

theorem Gap.of_blanks (h : ∀ c ∈ cs, Text.isBlank c = true) : Gap final false cs := by
  induction cs with
  | nil => exact .nil
  | cons c cs ih =>
    obtain ⟨hc, hcs⟩ := List.forall_mem_cons.mp h
    exact .blank hc (ih hcs)

theorem Gap.isBlank (h : Gap final false cs) : ∀ c ∈ cs, Text.isBlank c = true := by
  generalize hcommented : false = commented at h
  induction h with
  | nil => exact List.forall_mem_nil _
  | blank hc _ ih => exact List.forall_mem_cons.mpr ⟨hc, ih hcommented⟩
  | comment | last => cases hcommented

theorem gap_of_scan (h : scan cs = .lexeme kind piece rest) (hgap : kind.isGap = true) :
    Gap false (kind == .comment) piece ∨ rest = [] ∧ Gap true (kind == .comment) piece := by
  rcases scan_gap h hgap with ⟨rfl, hblank⟩ | ⟨rfl, hcomment⟩
  · left
    unfold blank? at hblank
    split at hblank
    · cases hblank
    · have hpiece : cs.takeWhile Text.isBlank = piece := congrArg Prod.fst (Option.some.inj hblank)
      refine .of_blanks fun c hc => ?_
      rw [← hpiece] at hc
      exact List.mem_takeWhile_imp hc
  · unfold comment? at hcomment
    split at hcomment
    · next cs =>
      have hbody : '\n' ∉ (splitWhile (· != '\n') cs).1 := fun hmem => by
        simpa using List.mem_takeWhile_imp hmem
      split at hcomment
      · next body back heq =>
        cases hcomment
        rw [heq] at hbody
        exact .inl (.comment hbody .nil)
      · next body back hfeed heq =>
        cases hcomment
        rw [heq] at hbody
        refine .inr ⟨?_, .last rfl hbody⟩
        -- What comes after the body would be a line feed.
        have hback := List.head?_dropWhile_not (· != '\n') cs
        rw [show cs.dropWhile (· != '\n') = rest from congrArg Prod.snd heq] at hback
        cases rest with
        | nil => rfl
        | cons d ds =>
          obtain rfl : d = '\n' := by simpa using hback
          exact absurd rfl (hfeed ds)
    · cases hcomment

namespace Tiles

theorem prepend (hgap : Gap false commented gap) (h : Tiles (pos + Text.byteLength gap) cs ts gaps) :
    ∃ gaps', Tiles pos (gap ++ cs) ts gaps' ∧ gaps'.any (·.2) = (commented || gaps.any (·.2)) := by
  cases h with
  | last hgap' => exact ⟨_, .last (hgap.append hgap'), by simp⟩
  | @cons _ gap' rest commented' t ts gaps hgap' hkind htext hspan hrest =>
    rw [← List.append_assoc]
    refine ⟨_, .cons (hgap.append hgap') hkind htext ?_ hrest, by simp [Bool.or_assoc]⟩
    rw [hspan, Text.byteLength_append, Nat.add_assoc]

theorem first {t : Token} {s : List Char} (hs : t.text = String.ofList s) (hne : s ≠ [])
    (hkind : t.kind ≠ .eof ∧ t.kind.isGap = false) (hspan : t.span = ⟨pos, pos + Text.byteLength s⟩)
    (hrest : Tiles t.span.stop cs ts gaps) : Tiles pos (s ++ cs) (t :: ts) (([], false) :: gaps) := by
  have htext : t.text.toList = s := by rw [hs, String.toList_ofList]
  have htoken := cons (Gap.nil : Gap false false []) hkind (htext ▸ hne) (by rw [htext, hspan]; rfl) hrest
  rwa [List.nil_append, htext] at htoken

theorem strays (h : Tiles (pos + Text.byteLength stray) cs ts gaps) :
    ∃ gaps', Tiles pos (stray.reverse ++ cs) (Token.strays pos stray ++ ts) gaps' ∧
      gaps'.any (·.2) = gaps.any (·.2) := by
  cases stray with
  | nil => exact ⟨gaps, h, rfl⟩
  | cons c stray =>
    refine ⟨([], false) :: gaps, ?_, rfl⟩
    exact first rfl (by simp) ⟨nofun, rfl⟩ (by rw [byteLength_reverse]) h

theorem token (h : Tiles pos cs ts gaps) : ∀ t ∈ ts, t.kind ≠ .eof ∧ t.span.start < t.span.stop ∧
    ∃ before after, cs = before ++ (t.text.toList ++ after) ∧
      t.span = ⟨pos + Text.byteLength before,
        pos + Text.byteLength before + Text.byteLength t.text.toList⟩ := by
  induction h with
  | last => exact List.forall_mem_nil _
  | @cons pos gap rest _ t ts _ _ hkind htext hspan _ ih =>
    refine List.forall_mem_cons.mpr ⟨⟨hkind.1, ?_, gap, rest, rfl, hspan⟩, fun u hu => ?_⟩
    · obtain ⟨c, cs, heq⟩ := List.exists_cons_of_ne_nil htext
      have hpos := c.utf8Size_pos
      rw [hspan, heq, Text.byteLength_cons]
      dsimp only
      omega
    · obtain ⟨heof, hlt, before, after, rfl, hu⟩ := ih u hu
      refine ⟨heof, hlt, gap ++ (t.text.toList ++ before), after, by simp, ?_⟩
      rw [hu, hspan]
      simp [Nat.add_assoc]

theorem ordered (h : Tiles pos cs ts gaps) :
    (∀ t ∈ ts, pos ≤ t.span.start) ∧ ts.Pairwise fun t u => t.span.stop ≤ u.span.start := by
  induction h with
  | last => exact ⟨List.forall_mem_nil _, .nil⟩
  | cons _ _ _ hspan _ ih =>
    refine ⟨List.forall_mem_cons.mpr ⟨?_, fun u hu => ?_⟩, .cons ih.1 ih.2⟩
    · rw [hspan]
      exact Nat.le_add_right _ _
    · refine le_trans ?_ (ih.1 u hu)
      rw [hspan, Nat.add_assoc]
      exact Nat.le_add_right _ _

theorem isBlank (h : Tiles pos cs ts gaps) (hgaps : gaps.any (·.2) = false) :
    ∀ gap ∈ gaps, ∀ c ∈ gap.1, Text.isBlank c = true := by
  induction h with
  | last hgap =>
    obtain rfl : _ = false := by simpa using hgaps
    exact List.forall_mem_singleton.mpr hgap.isBlank
  | cons hgap _ _ _ _ ih =>
    obtain ⟨rfl, hrest⟩ : _ = false ∧ _ := by simpa using hgaps
    exact List.forall_mem_cons.mpr ⟨hgap.isBlank, ih (by simpa using hrest)⟩

end Tiles

theorem commentIn_of_lexeme (h : scan cs = .lexeme kind piece rest) :
    commentIn cs = (kind == .comment || commentIn rest) := by
  obtain ⟨hsplit, hpiece⟩ := scan_eq_lexeme h
  cases cs with
  | nil => exact absurd (List.append_eq_nil_iff.mp hsplit.symm).1 hpiece
  | cons c cs =>
    rw [commentIn]
    split
    · next h' =>
      rw [h] at h'
      cases h'
      rfl
    · next hkind h' =>
      rw [h] at h'
      cases h'
      rw [beq_eq_false_iff_ne.mpr hkind, Bool.false_or]
    · next h' =>
      rw [h] at h'
      cases h'
    · next h' =>
      rw [h] at h'
      cases h'

theorem Tiles.lexeme (hscan : scan cs = .lexeme kind piece rest)
    (h : Tiles (pos + Text.byteLength piece) rest ts gaps) (hgaps : commentIn rest = gaps.any (·.2)) :
    ∃ gaps', Tiles pos cs ((if kind.isGap then [] else
        [{ kind, text := String.ofList piece, span := ⟨pos, pos + Text.byteLength piece⟩ }]) ++ ts) gaps' ∧
      commentIn cs = gaps'.any (·.2) := by
  obtain ⟨rfl, hpiece⟩ := scan_eq_lexeme hscan
  rw [commentIn_of_lexeme hscan, hgaps]
  by_cases hgap : kind.isGap = true
  · rw [if_pos hgap, List.nil_append]
    rcases gap_of_scan hscan hgap with hpiece | ⟨rfl, hpiece⟩
    · obtain ⟨gaps', htiles, hgaps'⟩ := h.prepend hpiece
      exact ⟨gaps', htiles, hgaps'.symm⟩
    · obtain ⟨rfl, rfl⟩ : ts = [] ∧ gaps = [([], false)] := by
        generalize hnil : ([] : List Char) = cs at h
        cases h with
        | last hgap =>
          cases hgap with
          | nil => exact ⟨rfl, rfl⟩
          | _ => cases hnil
        | cons _ _ htext =>
          have hpiece := (List.append_eq_nil_iff.mp (List.append_eq_nil_iff.mp hnil.symm).2).1
          exact absurd hpiece htext
      rw [List.append_nil]
      exact ⟨_, .last hpiece, rfl⟩
  · have hkind : (kind == .comment) = false := beq_eq_false_iff_ne.mpr fun h => hgap (by rw [h]; rfl)
    have heof : kind ≠ .eof := fun h => scan_role hscan (Bool.eq_false_iff.mpr hgap) (by rw [h]; rfl)
    rw [if_neg hgap, hkind]
    exact ⟨_, .first rfl hpiece ⟨heof, Bool.eq_false_iff.mpr hgap⟩ rfl h, rfl⟩

/-- The last token is the end of the text, and the others tile the text. A comment is found if and only if
one is in a gap. -/
theorem tokensFrom_tiles (pos : Nat) (stray cs : List Char) :
    let stop := pos + Text.byteLength stray + Text.byteLength cs
    ∃ ts gaps, tokensFrom pos stray cs = ts ++ [{ kind := .eof, text := "", span := ⟨stop, stop⟩ }] ∧
      Tiles pos (stray.reverse ++ cs) ts gaps ∧ commentIn cs = gaps.any (·.2) := by
  fun_induction tokensFrom pos stray cs with
  | case1 pos stray stop =>
    have hend : Tiles (pos + Text.byteLength stray) [] [] [([], false)] := .last .nil
    obtain ⟨gaps, htiles, hgaps⟩ := hend.strays
    rw [List.append_nil (strays pos stray)] at htiles
    refine ⟨_, gaps, rfl, htiles, ?_⟩
    rw [hgaps, commentIn]
    rfl
  | case2 pos stray c tail start kind piece rest hscan stop token ih =>
    obtain ⟨ts, gaps, htokens, htiles, hgaps⟩ := ih
    obtain ⟨gaps', htiles', hgaps'⟩ := htiles.lexeme hscan hgaps
    obtain ⟨gaps'', htiles'', hgaps''⟩ := htiles'.strays
    have hlength := congrArg Text.byteLength (scan_eq_lexeme hscan).1
    rw [Text.byteLength_append] at hlength
    refine ⟨_, gaps'', ?_, htiles'', hgaps'.trans hgaps''.symm⟩
    rw [htokens, hlength, List.append_assoc (strays pos stray), List.append_assoc (strays pos stray),
      List.append_assoc]
    simp [token, stop, start, Nat.add_assoc]
  | case3 pos stray c tail start hscan stop =>
    have hnone : commentIn (c :: tail) = false := by
      rw [commentIn]
      split <;> simp_all
    have hspan : (⟨pos, stop⟩ : Span) = ⟨pos, pos + Text.byteLength (stray.reverse ++ c :: tail)⟩ := by
      simp [byteLength_reverse, stop, start, Nat.add_assoc, Text.byteLength_append]
    have htiles := Tiles.first (t := { kind := .error, text := String.ofList (stray.reverse ++ c :: tail)
                                       span := ⟨pos, stop⟩, unterminated := true })
      rfl (by simp) ⟨nofun, rfl⟩ hspan (.last .nil)
    rw [List.append_nil] at htiles
    exact ⟨_, _, rfl, htiles, hnone⟩
  | case4 pos stray c tail hscan ih =>
    obtain ⟨ts, gaps, htokens, htiles, hgaps⟩ := ih
    have hnone : commentIn (c :: tail) = commentIn tail := by
      rw [commentIn]
      split <;> simp_all
    refine ⟨ts, gaps, ?_, ?_, hnone.trans hgaps⟩
    · rw [htokens]
      simp [Nat.add_assoc, Nat.add_left_comm]
    · rwa [List.reverse_cons, List.append_assoc] at htiles

end Token

namespace Reading

variable {P : Span → Prop} {r r' : Reading} {t : Token} {ts : List Token} {f : LocatedFault}
  {frames : List Frame}

/-- The spread signs that wait for their expressions are at such places. -/
def Waits (P : Span → Prop) (frames : List Frame) : Prop :=
  ∀ b done span, Frame.literal b done (some span) ∈ frames → P span

theorem Waits.tail {frame : Frame} (h : Waits P (frame :: frames)) : Waits P frames :=
  fun b done span hmem => h b done span (List.mem_cons_of_mem _ hmem)

theorem Waits.cons {frame : Frame} (h : Waits P frames)
    (hframe : ∀ b done span, frame = .literal b done (some span) → P span) :
    Waits P (frame :: frames) := by
  intro b done span hmem
  rcases List.mem_cons.mp hmem with heq | hmem
  · exact hframe b done span heq.symm
  · exact h b done span hmem

theorem Waits.push (h : Waits P frames) (e : Expr) (es : List Expr) : Waits P (push e frames es).frames := by
  fun_induction Reading.push e frames es with
  | case1 => exact h
  | case2 => exact h.tail.cons nofun
  | case3 => exact h.tail.cons nofun
  | case4 e frames es ih => exact ih h.tail
  | case5 e frames es ih => exact ih h.tail

/-- A token was taken, or refused at such a place. -/
def Placed (P : Span → Prop) : Except LocatedFault Reading → Prop
  | .ok r => Waits P r.frames
  | .error f => P f.span

theorem Waits.close (h : Waits P r.frames) (ht : P t.span) : Placed P (r.close t) := by
  unfold Reading.close
  split
  · next hframes =>
    rw [hframes] at h
    split
    · exact h.tail.push _ _
    · exact ht
  · next hframes => exact h _ _ _ (by rw [hframes]; exact List.mem_cons_self)
  · next hframes =>
    rw [hframes] at h
    split
    · exact h.tail.push _ _
    · exact ht
  · exact ht

theorem Waits.spread (h : Waits P r.frames) (ht : P t.span) : Placed P (r.spread t) := by
  unfold Reading.spread
  split
  · next hframes =>
    rw [hframes] at h
    exact h.tail.cons fun b done span heq => by
      cases heq
      exact ht
  · exact ht

/-- A token is refused where it is, or where a spread sign waits. -/
theorem Waits.step (h : Waits P r.frames) (ht : P t.span) : Placed P (r.step t) := by
  have hadded (e : Expr) : Placed P (.ok (r.add e)) := h.push e r.trees
  have hopened (b : Bracket) : Placed P (.ok (r.enter (.literal b [] none))) := h.cons nofun
  unfold Reading.step
  split
  case h_1 => exact ht
  case h_2 =>
    split
    · exact h
    · exact ht
  case h_3 | h_4 =>
    split
    · exact hadded _
    · exact ht
  case h_5 | h_6 => exact hadded _
  case h_7 | h_12 | h_13 => exact h.cons nofun
  case h_8 | h_9 | h_10 | h_11 => exact hopened _
  case h_14 => exact h.spread ht
  case h_15 | h_16 | h_17 => exact h.close ht
  case h_18 | h_19 => exact h

theorem Waits.run (h : Waits P r.frames) (hts : ∀ t ∈ ts, P t.span) (hf : (r.run ts).2 = some f) :
    P f.span := by
  induction ts generalizing r with
  | nil => cases hf
  | cons t ts ih =>
    obtain ⟨ht, hrest⟩ := List.forall_mem_cons.mp hts
    have hstep := h.step ht
    cases heq : r.step t with
    | ok r' =>
      rw [heq] at hstep
      rw [run_cons heq] at hf
      exact ih hstep hrest hf
    | error fault =>
      rw [heq] at hstep
      rw [run_error heq] at hf
      cases hf
      exact hstep

theorem Waits.runOne (h : Waits P r.frames) (hts : ∀ t ∈ ts, P t.span) (hnone : P ⟨0, 0⟩)
    (hf : r.runOne ts = .error f) : P f.span := by
  fun_induction Reading.runOne r ts with
  | case1 =>
    cases hf
    exact hnone
  | case2 => cases hf
  | case3 =>
    cases hf
    exact (List.forall_mem_cons.mp hts).1
  | case4 =>
    cases hf
    exact (List.forall_mem_cons.mp hts).1
  | case5 r t ts htrees hend r' heq ih =>
    obtain ⟨ht, hrest⟩ := List.forall_mem_cons.mp hts
    have hstep := h.step ht
    rw [heq] at hstep
    exact ih hstep hrest hf
  | case6 r t ts htrees hend fault heq =>
    cases hf
    have hstep := h.step (List.forall_mem_cons.mp hts).1
    rw [heq] at hstep
    exact hstep

end Reading

namespace Token

/-- The tokens of a text tile it, only white space and comments are between them, and a comment is found
if and only if there is one. Only white space is dropped from a text that can be formatted, and errors are
within their texts. -/
theorem tokens_tile (src : String) :
    (∃ ts gaps, tokenize src = ts ++ [{ kind := .eof, text := ""
                                        span := ⟨Text.byteLength src.toList, Text.byteLength src.toList⟩ }] ∧
      Tiles 0 src.toList ts gaps ∧
      (∀ t ∈ ts, t.kind ≠ .eof ∧ t.span.start < t.span.stop ∧ t.span.stop ≤ Text.byteLength src.toList ∧
        ∃ before after, src.toList = before ++ (t.text.toList ++ after) ∧
          t.span = ⟨Text.byteLength before, Text.byteLength before + Text.byteLength t.text.toList⟩) ∧
      (ts.Pairwise fun t u => t.span.stop ≤ u.span.start) ∧
      (hasComment src = true ↔ ∃ gap ∈ gaps, gap.2 = true) ∧
      (∀ path text, Shell.formatText path src = .ok text →
        ∀ gap ∈ gaps, ∀ c ∈ gap.1, Text.isBlank c = true)) ∧
    ∀ name e, (Source.mk name src).parse.error = some e ∨ (Source.mk name src).parseOne = .error e →
      e.span.start ≤ e.span.stop ∧ e.span.stop ≤ Text.byteLength src.toList := by
  set size := Text.byteLength src.toList
  obtain ⟨ts, gaps, htokens, htiles, hcomment⟩ := tokensFrom_tiles 0 [] src.toList
  rw [show 0 + Text.byteLength [] + Text.byteLength src.toList = size by simp [size]] at htokens
  rw [List.reverse_nil, List.nil_append] at htiles
  have htoken (t : Token) (ht : t ∈ ts) : t.kind ≠ .eof ∧ t.span.start < t.span.stop ∧
      t.span.stop ≤ size ∧ ∃ before after, src.toList = before ++ (t.text.toList ++ after) ∧
        t.span = ⟨Text.byteLength before, Text.byteLength before + Text.byteLength t.text.toList⟩ := by
    obtain ⟨hkind, hlt, before, after, hsrc, hspan⟩ := htiles.token t ht
    rw [Nat.zero_add] at hspan
    refine ⟨hkind, hlt, ?_, before, after, hsrc, hspan⟩
    simp only [size, hspan, hsrc, Text.byteLength_append]
    omega
  refine ⟨⟨ts, gaps, htokens, htiles, htoken, htiles.ordered.2, ?_, fun path text h => ?_⟩,
    fun name e he => ?_⟩
  · rw [show hasComment src = gaps.any (·.2) from hcomment, List.any_eq_true]
  · have hnone : hasComment src = false := by
      unfold Shell.formatText at h
      split at h
      · cases h
      · next hnone => exact Bool.eq_false_iff.mpr hnone
    exact htiles.isBlank (hcomment.symm.trans hnone)
  · -- Every token, the end of the text included, is at such a place.
    have hspans : ∀ t ∈ tokenize src, t.span.start ≤ t.span.stop ∧ t.span.stop ≤ size := by
      intro t ht
      rw [show tokenize src = ts ++ _ from htokens] at ht
      rcases List.mem_append.mp ht with ht | ht
      · exact ⟨Nat.le_of_lt (htoken t ht).2.1, (htoken t ht).2.2.1⟩
      · rw [List.mem_singleton.mp ht]
        exact ⟨le_rfl, le_rfl⟩
    have hstart : Reading.Waits (fun span => span.start ≤ span.stop ∧ span.stop ≤ size)
        Reading.start.frames := nofun
    rcases he with he | he
    · obtain ⟨f, hf, rfl⟩ := Option.map_eq_some_iff.mp he
      exact hstart.run hspans hf
    · unfold Source.parseOne at he
      split at he
      · cases he
      · next f hf =>
        cases he
        exact hstart.runOne hspans ⟨le_rfl, Nat.zero_le _⟩ hf

end Token

end EventTally
