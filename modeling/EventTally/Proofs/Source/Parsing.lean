import EventTally.Proofs.Source.Grammar
import EventTally.Proofs.Source.Lexing

/-! # The parser accepts its grammar

The machine that reads source text takes the tokens of a derivation and adds its tree
(`run_yield`). Conversely the tokens it has taken are always those of complete derivations and of what is
open (`After`), which every step keeps (`After.step`). So a text parses if and only if its tokens have a
derivation, and where it does not, the trees are those of the most expressions at the front
(`parse_iff_derivation`).
-/

namespace EventTally

namespace Token

theorem scan_role {cs piece rest : List Char} {kind : TokenKind} (h : scan cs = .lexeme kind piece rest)
    (hgap : kind.isGap = false) : Grammar.role kind ≠ .none := by
  have hall : ∀ p ∈ punctuation, Grammar.role p.2 ≠ .none := by decide
  cases lexeme_of_scan h with
  | float | int | symbol | string => decide
  | sign hmem => exact hall _ hmem
  | blank | comment => cases hgap

/-- A token is of some use to the grammar or is text that starts no token. -/
def IsProper (t : Token) : Prop := Grammar.role t.kind ≠ .none ∨ t.kind = .error

theorem tokensFrom_eq (pos : Nat) (stray cs : List Char) :
    ∃ ts eof, tokensFrom pos stray cs = ts ++ [eof] ∧ eof.kind = .eof ∧ ∀ t ∈ ts, t.IsProper := by
  obtain ⟨ts, eof, htokens, heof, hall⟩ := tokensFrom_eq_concat pos stray cs
  refine ⟨ts, eof, htokens, heof, fun t ht => ?_⟩
  obtain herror | ⟨hgap, cs', rest, hscan⟩ := hall t ht
  · exact .inr herror
  · exact .inl (scan_role hscan hgap)

end Token

namespace Reading

open Grammar

theorem run_cons {r r' : Reading} {t : Token} (h : r.step t = .ok r') (ts : List Token) :
    r.run (t :: ts) = r'.run ts := by
  rw [run, h]

theorem run_error {r : Reading} {t : Token} {fault : LocatedFault} (h : r.step t = .error fault)
    (ts : List Token) : r.run (t :: ts) = (r, some fault) := by
  rw [run, h]

theorem step_atom {r : Reading} {t : Token} {a : Atom} (h : atomOf? t = some a) :
    r.step t = .ok (r.add (.atom a)) := by
  unfold atomOf? at h
  unfold step
  split at h
  · next hk =>
    rw [hk]
    obtain ⟨i, hi, rfl⟩ := Option.map_eq_some_iff.mp h
    simp only [hi]
  · next hk =>
    rw [hk]
    obtain ⟨f, hf, rfl⟩ := Option.map_eq_some_iff.mp h
    simp only [hf]
  · next hk =>
    rw [hk]
    cases h
    rfl
  · next hk =>
    rw [hk]
    cases h
    rfl
  · cases h

theorem step_opener {r : Reading} {t : Token} (b : Bracket) (h : t.kind = b.openerKind) :
    r.step t = .ok (r.enter (.literal b [] none)) := by
  unfold step
  cases b <;> (rw [h]; rfl)

theorem step_closer {r : Reading} {t : Token} (h : role t.kind = .closer) : r.step t = r.close t := by
  unfold step
  split <;> first | rfl | (next hk => rw [hk] at h; cases h)

theorem close_form {t : Token} (h : t.kind = .closeParen) (done : List Expr) (frames : List Frame)
    (es : List Expr) :
    Reading.step ⟨.form done :: frames, es⟩ t = .ok (push (.form done.reverse) frames es) := by
  rw [step_closer (by rw [h]; rfl)]
  exact if_pos h

theorem close_literal {t : Token} (b : Bracket) (h : t.kind = b.closerKind) (done : List Item)
    (frames : List Frame) (es : List Expr) :
    Reading.step ⟨.literal b done none :: frames, es⟩ t =
      .ok (push (b.desugar done.reverse) frames es) := by
  rw [step_closer (by rw [h, role_closerKind])]
  exact if_pos h

mutual

/-- The tokens of an expression add its tree. -/
theorem run_yield (d : Derivation) (r : Reading) (rest : List Token) :
    r.run (d.yield ++ rest) = (r.add d.tree).run rest := by
  match d with
  | .atom t a h => exact run_cons (step_atom h) rest
  | .form opener closer hopen hclose elems =>
    have henter : r.step opener = .ok (r.enter (.form [])) := by
      unfold step
      rw [hopen]
    rw [Derivation.yield, List.cons_append, run_cons henter, List.append_assoc, List.singleton_append]
    unfold enter
    rw [run_yieldAll_form, run_cons (close_form hclose _ _ _), List.append_nil, List.reverse_reverse]
    rfl
  | .literal b opener closer hopen hclose elems =>
    rw [Derivation.yield, List.cons_append, run_cons (step_opener b hopen), List.append_assoc,
      List.singleton_append]
    unfold enter
    rw [run_yieldElements, run_cons (close_literal b hclose _ _ _), List.append_nil,
      List.reverse_reverse]
    rfl
  | .quote sign h d =>
    have henter : r.step sign = .ok (r.enter .quote) := by
      unfold step
      rw [h]
    rw [Derivation.yield, List.cons_append, run_cons henter, run_yield d]
    rfl
  | .pin sign h d =>
    have henter : r.step sign = .ok (r.enter .pin) := by
      unfold step
      rw [h]
    rw [Derivation.yield, List.cons_append, run_cons henter, run_yield d]
    rfl

theorem run_yieldAll_form (ds : List Derivation) (done : List Expr) (frames : List Frame)
    (es : List Expr) (rest : List Token) :
    Reading.run ⟨.form done :: frames, es⟩ (yieldAll ds ++ rest) =
      Reading.run ⟨.form ((treesOf ds).reverse ++ done) :: frames, es⟩ rest := by
  match ds with
  | [] => rfl
  | d :: ds =>
    rw [yieldAll, List.append_assoc, run_yield d]
    unfold add push
    rw [run_yieldAll_form ds, treesOf, List.reverse_cons, List.append_assoc, List.singleton_append]

theorem run_element (e : Element) (b : Bracket) (done : List Item) (frames : List Frame)
    (es : List Expr) (rest : List Token) :
    Reading.run ⟨.literal b done none :: frames, es⟩ (e.yield ++ rest) =
      Reading.run ⟨.literal b (e.item :: done) none :: frames, es⟩ rest := by
  match e with
  | .plain d =>
    rw [Element.yield, run_yield d]
    rfl
  | .spread sign h d =>
    have hsign : Reading.step ⟨.literal b done none :: frames, es⟩ sign =
        .ok ⟨.literal b done (some sign.span) :: frames, es⟩ := by
      unfold step
      rw [h]
      rfl
    rw [Element.yield, List.cons_append, run_cons hsign, run_yield d]
    rfl

theorem run_yieldElements (elems : List Element) (b : Bracket) (done : List Item) (frames : List Frame)
    (es : List Expr) (rest : List Token) :
    Reading.run ⟨.literal b done none :: frames, es⟩ (yieldElements elems ++ rest) =
      Reading.run ⟨.literal b ((itemsOf elems).reverse ++ done) none :: frames, es⟩ rest := by
  match elems with
  | [] => rfl
  | e :: elems =>
    rw [yieldElements, List.append_assoc, run_element e, run_yieldElements elems, itemsOf,
      List.reverse_cons, List.append_assoc, List.singleton_append]

end

theorem run_yieldAll (ds : List Derivation) (es : List Expr) (rest : List Token) :
    Reading.run ⟨[], es⟩ (yieldAll ds ++ rest) = Reading.run ⟨[], (treesOf ds).reverse ++ es⟩ rest := by
  induction ds generalizing es with
  | nil => rfl
  | cons d ds ih =>
    rw [yieldAll, List.append_assoc, run_yield d]
    unfold add push
    rw [ih, treesOf, List.reverse_cons, List.append_assoc, List.singleton_append]

inductive OpenFrame : Frame → List Token → Prop
  | form {opener : Token} (hopen : opener.kind = .openParen) (ds : List Derivation) :
      OpenFrame (.form (treesOf ds).reverse) (opener :: yieldAll ds)
  | literal (b : Bracket) {opener : Token} (hopen : opener.kind = b.openerKind) (elems : List Element) :
      OpenFrame (.literal b (itemsOf elems).reverse none) (opener :: yieldElements elems)
  | pending (b : Bracket) {opener sign : Token} (hopen : opener.kind = b.openerKind)
      (elems : List Element) (h : sign.kind = .spread) :
      OpenFrame (.literal b (itemsOf elems).reverse (some sign.span))
        (opener :: (yieldElements elems ++ [sign]))
  | quote {sign : Token} (h : sign.kind = .quote) : OpenFrame .quote [sign]
  | pin {sign : Token} (h : sign.kind = .pin) : OpenFrame .pin [sign]

/-- The tokens that the open frames have taken, outermost first. -/
inductive OpenFrames : List Frame → List Token → Prop
  | nil : OpenFrames [] []
  | cons {f : Frame} {frames : List Frame} {ts us : List Token} (hf : OpenFrame f us)
      (h : OpenFrames frames ts) : OpenFrames (f :: frames) (ts ++ us)

/-- The reading after some tokens: they are those of complete expressions and of what is open. -/
structure After (ds : List Derivation) (ts : List Token) (r : Reading) : Prop where
  trees : r.trees = (treesOf ds).reverse
  frames : ∃ us, OpenFrames r.frames us ∧ ts = yieldAll ds ++ us

theorem After.start : After [] [] Reading.start := ⟨rfl, [], .nil, rfl⟩

theorem treesOf_append (ds ds' : List Derivation) : treesOf (ds ++ ds') = treesOf ds ++ treesOf ds' := by
  rw [treesOf_eq_map, treesOf_eq_map, treesOf_eq_map, List.map_append]

theorem itemsOf_append (es es' : List Element) : itemsOf (es ++ es') = itemsOf es ++ itemsOf es' := by
  rw [itemsOf_eq_map, itemsOf_eq_map, itemsOf_eq_map, List.map_append]

theorem After.push {frames : List Frame} {us : List Token} (h : OpenFrames frames us)
    (ds : List Derivation) (d : Derivation) :
    ∃ ds', ds <+: ds' ∧ After ds' (yieldAll ds ++ us ++ d.yield)
      (Reading.push d.tree frames (treesOf ds).reverse) := by
  induction h generalizing d with
  | nil =>
    refine ⟨ds ++ [d], List.prefix_append ds [d], ?_, [], .nil, ?_⟩
    · rw [treesOf_append, List.reverse_append]
      rfl
    · simp [yieldAll_append, yieldAll]
  | @cons f frames ts us hf h ih =>
    cases hf with
    | @form opener hopen elems =>
      refine ⟨ds, List.prefix_rfl, rfl, ts ++ (opener :: yieldAll (elems ++ [d])), ?_, ?_⟩
      · have hframe := OpenFrame.form hopen (elems ++ [d])
        rw [treesOf_append, List.reverse_append] at hframe
        exact .cons hframe h
      · simp [yieldAll_append, yieldAll]
    | @literal b opener hopen elems =>
      refine ⟨ds, List.prefix_rfl, rfl, ts ++ (opener :: yieldElements (elems ++ [.plain d])), ?_, ?_⟩
      · have hframe := OpenFrame.literal b hopen (elems ++ [.plain d])
        rw [itemsOf_append, List.reverse_append] at hframe
        exact .cons hframe h
      · simp [yieldElements_append, yieldElements, Element.yield]
    | @pending b opener sign hopen elems hsign =>
      refine ⟨ds, List.prefix_rfl, rfl, ts ++ (opener :: yieldElements (elems ++ [.spread sign hsign d])),
        ?_, ?_⟩
      · have hframe := OpenFrame.literal b hopen (elems ++ [.spread sign hsign d])
        rw [itemsOf_append, List.reverse_append] at hframe
        exact .cons hframe h
      · simp [yieldElements_append, yieldElements, Element.yield]
    | @quote sign hsign =>
      obtain ⟨ds', hfront, hafter⟩ := ih (.quote sign hsign d)
      refine ⟨ds', hfront, ?_⟩
      have htokens : yieldAll ds ++ (ts ++ [sign]) ++ d.yield =
          yieldAll ds ++ ts ++ (Derivation.quote sign hsign d).yield := by simp [Derivation.yield]
      rw [htokens]
      exact hafter
    | @pin sign hsign =>
      obtain ⟨ds', hfront, hafter⟩ := ih (.pin sign hsign d)
      refine ⟨ds', hfront, ?_⟩
      have htokens : yieldAll ds ++ (ts ++ [sign]) ++ d.yield =
          yieldAll ds ++ ts ++ (Derivation.pin sign hsign d).yield := by simp [Derivation.yield]
      rw [htokens]
      exact hafter

variable {ds : List Derivation} {ts : List Token} {r r' : Reading} {t : Token}

theorem After.add (h : After ds ts r) (d : Derivation) :
    ∃ ds', ds <+: ds' ∧ After ds' (ts ++ d.yield) (r.add d.tree) := by
  obtain ⟨htrees, us, hframes, rfl⟩ := h
  obtain ⟨ds', hfront, hafter⟩ := After.push hframes ds d
  refine ⟨ds', hfront, ?_⟩
  unfold Reading.add
  rwa [htrees]

theorem After.enter (h : After ds ts r) {f : Frame} (hf : OpenFrame f [t]) :
    After ds (ts ++ [t]) (r.enter f) := by
  obtain ⟨htrees, us, hframes, rfl⟩ := h
  exact ⟨htrees, us ++ [t], .cons hf hframes, List.append_assoc _ _ _⟩

theorem After.close (h : After ds ts r) (hstep : r.close t = .ok r') :
    ∃ ds', ds <+: ds' ∧ After ds' (ts ++ [t]) r' := by
  obtain ⟨htrees, us, hframes, rfl⟩ := h
  obtain ⟨frames, es⟩ := r
  cases htrees
  cases hframes with
  | nil => cases hstep
  | @cons f frames us us' hf h =>
    cases hf with
    | @form opener hopen elems =>
      unfold Reading.close at hstep
      simp only at hstep
      split at hstep
      · next hclose =>
        cases hstep
        obtain ⟨ds', hfront, hafter⟩ := After.push h ds (.form opener t hopen hclose elems)
        refine ⟨ds', hfront, ?_⟩
        simpa [Derivation.yield, Derivation.tree] using hafter
      · cases hstep
    | @literal b opener hopen elems =>
      unfold Reading.close at hstep
      simp only at hstep
      split at hstep
      · next hclose =>
        cases hstep
        obtain ⟨ds', hfront, hafter⟩ := After.push h ds (.literal b opener t hopen hclose elems)
        refine ⟨ds', hfront, ?_⟩
        simpa [Derivation.yield, Derivation.tree] using hafter
      · cases hstep
    | pending => cases hstep
    | quote => cases hstep
    | pin => cases hstep

theorem After.spread (h : After ds ts r) (ht : t.kind = .spread) (hstep : r.spread t = .ok r') :
    After ds (ts ++ [t]) r' := by
  obtain ⟨htrees, us, hframes, rfl⟩ := h
  obtain ⟨frames, es⟩ := r
  cases hframes with
  | nil => cases hstep
  | @cons f frames us us' hf h =>
    cases hf with
    | @literal b opener hopen elems =>
      cases hstep
      refine ⟨htrees, _, .cons (.pending b hopen elems ht) h, ?_⟩
      simp
    | form => cases hstep
    | pending => cases hstep
    | quote => cases hstep
    | pin => cases hstep

/-- Every token that is taken completes expressions or opens something. -/
theorem After.step (h : After ds ts r) (ht : t.IsProper) (hstep : r.step t = .ok r') :
    ∃ ds', ds <+: ds' ∧ After ds' (ts ++ [t]) r' := by
  have htaken := hstep
  unfold Reading.step at htaken
  have hatom {a : Atom} (ha : atomOf? t = some a) : ∃ ds', ds <+: ds' ∧ After ds' (ts ++ [t]) r' := by
    rw [step_atom ha] at hstep
    cases hstep
    exact h.add (.atom t a ha)
  have hopener (b : Bracket) (hb : t.kind = b.openerKind) :
      ∃ ds', ds <+: ds' ∧ After ds' (ts ++ [t]) r' := by
    rw [step_opener b hb] at hstep
    cases hstep
    exact ⟨ds, List.prefix_rfl, h.enter (.literal b hb [])⟩
  have hcloser (hrole : role t.kind = .closer) : ∃ ds', ds <+: ds' ∧ After ds' (ts ++ [t]) r' := by
    rw [step_closer hrole] at hstep
    exact h.close hstep
  cases hk : t.kind with
  | error =>
    rw [hk] at htaken
    cases htaken
  | eof | blank | comment =>
    unfold Token.IsProper at ht
    rw [hk] at ht
    simp [role] at ht
  | int =>
    cases hi : Decimal.readInt64? t.text.toList with
    | some i => exact hatom (a := .int i) (by unfold atomOf?; rw [hk]; simp only [hi]; rfl)
    | none =>
      rw [hk] at htaken
      simp only [hi] at htaken
      cases htaken
  | float =>
    cases hf : Decimal.readPlain? t.text.toList with
    | some f => exact hatom (a := .float f) (by unfold atomOf?; rw [hk]; simp only [hf]; rfl)
    | none =>
      rw [hk] at htaken
      simp only [hf] at htaken
      cases htaken
  | symbol => exact hatom (by unfold atomOf?; rw [hk])
  | string => exact hatom (by unfold atomOf?; rw [hk])
  | openParen =>
    rw [hk] at htaken
    cases htaken
    exact ⟨ds, List.prefix_rfl, h.enter (.form hk [])⟩
  | openBracket => exact hopener .list hk
  | openBrace => exact hopener .tuple hk
  | openHashBrace => exact hopener .dict hk
  | openHashBracket => exact hopener .set hk
  | quote =>
    rw [hk] at htaken
    cases htaken
    exact ⟨ds, List.prefix_rfl, h.enter (.quote hk)⟩
  | pin =>
    rw [hk] at htaken
    cases htaken
    exact ⟨ds, List.prefix_rfl, h.enter (.pin hk)⟩
  | spread =>
    rw [hk] at htaken
    exact ⟨ds, List.prefix_rfl, h.spread hk htaken⟩
  | closeParen | closeBracket | closeBrace => exact hcloser (by rw [hk]; rfl)

theorem After.run (h : After ds ts r) (us : List Token) (hus : ∀ t ∈ us, t.IsProper) :
    ∃ ds' taken left, us = taken ++ left ∧ ds <+: ds' ∧ After ds' (ts ++ taken) (r.run us).1 ∧
      ((r.run us).2 = none → left = []) := by
  induction us generalizing r ds ts with
  | nil => exact ⟨ds, [], [], rfl, List.prefix_rfl, by rwa [List.append_nil], fun _ => rfl⟩
  | cons t us ih =>
    obtain ⟨ht, hrest⟩ := List.forall_mem_cons.mp hus
    cases hstep : r.step t with
    | ok r' =>
      obtain ⟨ds₁, hfront, hafter⟩ := h.step ht hstep
      obtain ⟨ds', taken, left, rfl, hfront', hafter', hleft⟩ := ih hafter hrest
      rw [run_cons hstep]
      refine ⟨ds', t :: taken, left, rfl, hfront.trans hfront', ?_, hleft⟩
      rwa [List.append_assoc] at hafter'
    | error fault =>
      rw [run_error hstep]
      exact ⟨ds, [], t :: us, rfl, List.prefix_rfl, by rwa [List.append_nil], fun h => by cases h⟩

theorem run_eof (r : Reading) (ts : List Token) {eof : Token} (heof : eof.kind = .eof) :
    (r.run (ts ++ [eof])).1 = (r.run ts).1 ∧
      ((r.run (ts ++ [eof])).2 = none ↔ (r.run ts).2 = none ∧ (r.run ts).1.frames = []) := by
  induction ts generalizing r with
  | nil =>
    have hstep : r.step eof = if r.frames.isEmpty then .ok r else .error ⟨.endOfInput, eof.span⟩ := by
      unfold Reading.step
      rw [heof]
    by_cases hopen : r.frames.isEmpty = true
    · rw [if_pos hopen] at hstep
      rw [List.nil_append, run_cons hstep]
      exact ⟨rfl, fun _ => ⟨rfl, List.isEmpty_iff.mp hopen⟩, fun _ => rfl⟩
    · rw [if_neg hopen] at hstep
      rw [List.nil_append, run_error hstep]
      exact ⟨rfl, nofun, fun h => absurd (List.isEmpty_iff.mpr h.2) hopen⟩
  | cons t ts ih =>
    cases hstep : r.step t with
    | ok r' =>
      rw [List.cons_append, run_cons hstep, run_cons hstep]
      exact ih r'
    | error fault =>
      rw [List.cons_append, run_error hstep, run_error hstep]
      exact ⟨rfl, nofun, fun h => nomatch h.1⟩

theorem run_longest {us : List Token} (hus : ∀ t ∈ us, t.IsProper) :
    ∃ ds more, yieldAll ds ++ more = us ∧ (start.run us).1.trees = (treesOf ds).reverse ∧
      ((start.run us).2 = none → (start.run us).1.frames = [] → more = []) ∧
      ∀ ds', yieldAll ds' <+: us → ds' <+: ds := by
  obtain ⟨ds, taken, left, rfl, -, ⟨htrees, vs, hframes, htaken⟩, hleft⟩ := After.start.run _ hus
  rw [List.nil_append] at htaken
  refine ⟨ds, vs ++ left, by rw [htaken, List.append_assoc], htrees, fun hfault hopen => ?_, ?_⟩
  · rw [hopen] at hframes
    cases hframes
    exact hleft hfault
  · rintro ds' ⟨rest, hrest⟩
    -- The run goes on after the expressions of `ds'`, and ends in the same reading.
    have hmiddle : start.run (taken ++ left) = Reading.run ⟨[], (treesOf ds').reverse⟩ rest := by
      rw [← hrest]
      exact (run_yieldAll ds' [] rest).trans (by rw [List.append_nil])
    have hafter : After ds' (yieldAll ds') ⟨[], (treesOf ds').reverse⟩ :=
      ⟨rfl, [], .nil, (List.append_nil _).symm⟩
    obtain ⟨ds₁, taken₁, left₁, hsplit, hfront, ⟨htrees₁, vs₁, -, htaken₁⟩, -⟩ :=
      hafter.run rest fun t ht => hus t (by rw [← hrest]; exact List.mem_append_right _ ht)
    rw [← hmiddle, htrees] at htrees₁
    have hlength : ds₁.length = ds.length := by
      have := congrArg List.length htrees₁
      simpa [treesOf_eq_map] using this.symm
    have htokens : yieldAll ds₁ ++ (vs₁ ++ left₁) = yieldAll ds ++ (vs ++ left) := by
      rw [← List.append_assoc, ← List.append_assoc, ← htaken, ← htaken₁, ← hrest, hsplit,
        List.append_assoc]
    rwa [eq_of_length htokens hlength] at hfront

end Reading

open Grammar in
/-- A text parses if and only if its tokens have a derivation; there is at most one. The trees are those
of the most expressions at the front of the text, so of all if it parses. What a literal stands for is
`Literal`. -/
theorem parse_iff_derivation (src : Source) :
    ∃ tokens eof, Token.tokenize src.code = tokens ++ [eof] ∧ eof.kind = .eof ∧
      (src.parse.error = none ↔ ∃ ds, yieldAll ds = tokens) ∧
      (∀ ds ds', yieldAll ds = tokens → yieldAll ds' = tokens → ds = ds') ∧
      (∀ ds, yieldAll ds = tokens → src.parse.trees = ds.map Derivation.tree) ∧
      (∃ ds, yieldAll ds <+: tokens ∧ (∀ ds', yieldAll ds' <+: tokens → ds' <+: ds) ∧
        src.parse.trees = ds.map Derivation.tree) ∧
      ∀ b items e, Literal b items e ↔ e = b.desugar items := by
  obtain ⟨tokens, eof, htokens, heof, hproper⟩ := Token.tokensFrom_eq 0 [] src.code.toList
  obtain ⟨ds, more, hmore, htrees, hcomplete, hlongest⟩ := Reading.run_longest hproper
  obtain ⟨hreading, hfault⟩ := Reading.run_eof Reading.start tokens heof
  have hparse : src.parse = ⟨(Reading.start.run (Token.tokenize src.code)).1.trees.reverse,
      (Reading.start.run (Token.tokenize src.code)).2.map src.locate⟩ := rfl
  have htokenize : Token.tokenize src.code = tokens ++ [eof] := htokens
  rw [htokenize, hreading, htrees, List.reverse_reverse, treesOf_eq_map] at hparse
  have herror : src.parse.error = none ↔ (Reading.start.run (tokens ++ [eof])).2 = none := by
    rw [hparse]
    exact Option.map_eq_none_iff
  have hwhole (ds' : List Derivation) (h : yieldAll ds' = tokens) : ds' = ds := by
    obtain ⟨rest, rfl⟩ := hlongest ds' (h ▸ List.prefix_rfl)
    rw [← h, yieldAll_append, List.append_assoc, List.append_right_eq_self] at hmore
    rw [eq_nil_of_yieldAll (List.append_eq_nil_iff.mp hmore).1, List.append_nil]
  have htrees' : src.parse.trees = ds.map Derivation.tree := by rw [hparse]
  refine ⟨tokens, eof, htokenize, heof, ?_, ?_, ?_, ?_, ?_⟩
  · rw [herror, hfault]
    constructor
    · rintro ⟨hnone, hopen⟩
      refine ⟨ds, ?_⟩
      rw [← hmore, hcomplete hnone hopen, List.append_nil]
    · rintro ⟨ds', rfl⟩
      have hrun := Reading.run_yieldAll ds' [] []
      rw [List.append_nil] at hrun
      exact ⟨congrArg Prod.snd hrun, congrArg (fun x => x.1.frames) hrun⟩
  · exact fun ds₁ ds₂ h₁ h₂ => yieldAll_injective (h₁.trans h₂.symm)
  · intro ds' h
    rw [htrees', hwhole ds' h]
  · exact ⟨ds, ⟨more, hmore⟩, hlongest, htrees'⟩
  · exact fun b items e => literal_iff

open Grammar in
/-- A literal with a spread that is merged and one that is left. -/
theorem parse_iff_derivation_spread :
    (Source.mk "code" "[1 &[2] &a]").parse.error = none ∧
      (Source.mk "code" "[1 &[2] &a]").parse.trees =
        [.tagged "into_list" [.tagged "list" [.atom (.int 1), .atom (.int 2)], .sym "a"]] := by
  obtain ⟨tokens, eof, htokens, heof, hiff, -, htrees, -⟩ :=
    parse_iff_derivation (Source.mk "code" "[1 &[2] &a]")
  let inner : Derivation := .literal .list ⟨.openBracket, "[", ⟨4, 5⟩, false⟩
    ⟨.closeBracket, "]", ⟨6, 7⟩, false⟩
    rfl rfl [.plain (.atom ⟨.int, "2", ⟨5, 6⟩, false⟩ (.int 2) rfl)]
  let outer : Derivation := .literal .list ⟨.openBracket, "[", ⟨0, 1⟩, false⟩
    ⟨.closeBracket, "]", ⟨10, 11⟩, false⟩
    rfl rfl [.plain (.atom ⟨.int, "1", ⟨1, 2⟩, false⟩ (.int 1) rfl),
      .spread ⟨.spread, "&", ⟨3, 4⟩, false⟩ rfl inner,
      .spread ⟨.spread, "&", ⟨8, 9⟩, false⟩ rfl (.atom ⟨.symbol, "a", ⟨9, 10⟩, false⟩ (.sym "a") rfl)]
  have hscan : Token.tokenize "[1 &[2] &a]" = yieldAll [outer] ++ [⟨.eof, "", ⟨11, 11⟩, false⟩] := by
    decide +kernel
  obtain ⟨hyield, -⟩ := List.append_inj' (hscan.symm.trans htokens) rfl
  exact ⟨hiff.mpr ⟨_, hyield⟩, htrees _ hyield⟩

end EventTally
