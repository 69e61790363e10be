import EventTally.Proofs.Source.LongerText
import EventTally.Proofs.Source.Parsing

/-! # Reading a text that goes on

If a text parses, then more text after a line feed is read as if it stood alone, and its trees come
after those of the first text (`parse?_append_newline`). If it does not parse and the reason does not
lie at its end, no text after a line feed changes that (`parse?_append_error`). Both together, with the
trees before an error, are `parse_append_lines`.
-/

namespace EventTally

def LocatedFault.shift (k : Nat) (f : LocatedFault) : LocatedFault := { f with span := f.span.shift k }

/-- The frame `k` bytes later in the text. -/
def Frame.shift (k : Nat) : Frame → Frame
  | .literal b done pending => .literal b done (pending.map (Span.shift k))
  | f => f

namespace Reading

variable {k : Nat} {old : List Expr}

/-- The reading `k` bytes later in a text in which trees were complete before. -/
def later (k : Nat) (old : List Expr) (r : Reading) : Reading :=
  { frames := r.frames.map (Frame.shift k), trees := r.trees ++ old }

theorem push_later (e : Expr) (frames : List Frame) (trees : List Expr) :
    push e (frames.map (Frame.shift k)) (trees ++ old) = (push e frames trees).later k old := by
  induction frames generalizing e with
  | nil => rfl
  | cons f frames ih =>
    cases f with
    | form done => rfl
    | literal b done pending =>
      cases pending with
      | none => rfl
      | some span => rfl
    | quote => exact ih e.quoted
    | pin => exact ih e.pinned

def laterStep (k : Nat) (old : List Expr) :
    Except LocatedFault Reading → Except LocatedFault Reading
  | .ok r => .ok (r.later k old)
  | .error f => .error (f.shift k)

theorem close_later (r : Reading) (t : Token) :
    (r.later k old).close (t.shift k) = laterStep k old (r.close t) := by
  obtain ⟨frames, trees⟩ := r
  cases frames with
  | nil => rfl
  | cons f frames =>
    cases f with
    | form done =>
      change (if t.kind = .closeParen then _ else _) = laterStep k old (if t.kind = .closeParen then _ else _)
      split
      · exact congrArg Except.ok (push_later _ _ _)
      · rfl
    | literal b done pending =>
      cases pending with
      | none =>
        change (if t.kind = b.closerKind then _ else _) =
          laterStep k old (if t.kind = b.closerKind then _ else _)
        split
        · exact congrArg Except.ok (push_later _ _ _)
        · rfl
      | some span => rfl
    | quote => rfl
    | pin => rfl

theorem spread_later (r : Reading) (t : Token) :
    (r.later k old).spread (t.shift k) = laterStep k old (r.spread t) := by
  obtain ⟨frames, trees⟩ := r
  cases frames with
  | nil => rfl
  | cons f frames =>
    cases f with
    | literal b done pending =>
      cases pending with
      | none => rfl
      | some span => rfl
    | form done => rfl
    | quote => rfl
    | pin => rfl

theorem step_later (r : Reading) (t : Token) :
    (r.later k old).step (t.shift k) = laterStep k old (r.step t) := by
  have hadd (e : Expr) : (r.later k old).add e = (r.add e).later k old :=
    push_later e r.frames r.trees
  have hkind : (t.shift k).kind = t.kind := rfl
  have htext : (t.shift k).text = t.text := rfl
  unfold step
  rw [hkind]
  split
  · rfl
  · obtain ⟨frames, trees⟩ := r
    cases frames <;> rfl
  · rw [htext]
    cases Decimal.readInt64? t.text.toList with
    | some _ => exact congrArg Except.ok (hadd _)
    | none => rfl
  · rw [htext]
    cases Decimal.readPlain? t.text.toList with
    | some _ => exact congrArg Except.ok (hadd _)
    | none => rfl
  · exact congrArg Except.ok (hadd _)
  · exact congrArg Except.ok (hadd _)
  · rfl
  · rfl
  · rfl
  · rfl
  · rfl
  · rfl
  · rfl
  · exact spread_later r t
  · exact close_later r t
  · exact close_later r t
  · exact close_later r t
  · rfl
  · rfl

theorem run_later (r : Reading) (ts : List Token) :
    (r.later k old).run (ts.map (Token.shift k)) =
      ((r.run ts).1.later k old, (r.run ts).2.map (LocatedFault.shift k)) := by
  induction ts generalizing r with
  | nil => rfl
  | cons t ts ih =>
    have hlater : (r.later k old).step (t.shift k) = laterStep k old (r.step t) := step_later r t
    cases hstep : r.step t with
    | ok r' =>
      rw [hstep] at hlater
      rw [List.map_cons, run_cons hlater, run_cons hstep]
      exact ih r'
    | error fault =>
      rw [hstep] at hlater
      rw [List.map_cons, run_error hlater, run_error hstep]
      rfl

theorem run_append (r : Reading) (ts us : List Token) :
    r.run (ts ++ us) = match r.run ts with
      | (r', none) => r'.run us
      | (r', some fault) => (r', some fault) := by
  induction ts generalizing r with
  | nil => rfl
  | cons t ts ih =>
    cases hstep : r.step t with
    | ok r' =>
      rw [List.cons_append, run_cons hstep, run_cons hstep]
      exact ih r'
    | error fault =>
      rw [List.cons_append, run_error hstep, run_error hstep]

/-- A token other than the end and an unterminated string. -/
def IsWhole (t : Token) : Prop := t.IsProper ∧ t.unterminated = false

theorem step_fault {r : Reading} {t : Token} {f : LocatedFault} (ht : IsWhole t)
    (h : r.step t = .error f) : f.fault.isPartial = false := by
  have hspread : r.spread t = .error f → f.fault.isPartial = false := by
    intro h
    unfold spread at h
    split at h
    · cases h
    · cases h
      rfl
  have hclose : r.close t = .error f → f.fault.isPartial = false := by
    intro h
    unfold close at h
    split at h
    · split at h
      · cases h
      · cases h
        rfl
    · cases h
      rfl
    · split at h
      · cases h
      · cases h
        rfl
    · cases h
      rfl
  obtain ⟨hproper, hwhole⟩ := ht
  unfold step at h
  cases hk : t.kind with
  | error =>
    rw [hk] at h
    cases h
    exact hwhole
  | eof =>
    unfold Token.IsProper at hproper
    rw [hk] at hproper
    simp [Grammar.role] at hproper
  | int =>
    rw [hk] at h
    dsimp only at h
    split at h
    · cases h
    · cases h
      rfl
  | float =>
    rw [hk] at h
    dsimp only at h
    split at h
    · cases h
    · cases h
      rfl
  | spread =>
    rw [hk] at h
    exact hspread h
  | closeParen | closeBracket | closeBrace =>
    rw [hk] at h
    exact hclose h
  | _ =>
    rw [hk] at h
    cases h

theorem run_fault {r : Reading} {ts : List Token} {f : LocatedFault} (hts : ∀ t ∈ ts, IsWhole t)
    (h : (r.run ts).2 = some f) : f.fault.isPartial = false := by
  induction ts generalizing r with
  | nil => cases h
  | cons t ts ih =>
    obtain ⟨ht, hts⟩ := List.forall_mem_cons.mp hts
    cases hstep : r.step t with
    | ok r' =>
      rw [run_cons hstep] at h
      exact ih hts h
    | error fault =>
      rw [run_error hstep] at h
      cases h
      exact step_fault ht hstep

open Token

/-- A text ends in its last token, or in a string literal without its end. -/
inductive Ends (cs : List Char) : Prop
  | whole (front : List Token) (eof : Token) (heof : eof.kind = .eof)
      (hfront : ∀ t ∈ front, IsWhole t) (tokens : tokensFrom 0 [] cs = front ++ [eof])
      (more : ∀ more, tokensFrom 0 [] (cs ++ '\n' :: more) = front ++
        (tokensFrom 0 [] more).map (Token.shift (Text.byteLength cs + 1)))
  | cut (front : List Token) (start : Nat) (run tail : List Char)
      (hfront : ∀ t ∈ front, IsWhole t) (hcut : Cut 0 [] cs front start run.reverse tail)
      (hrun : AllStray run tail)

theorem ends (cs : List Char) : Ends cs := by
  obtain ⟨ts, eof, htokens, heof, hproper⟩ := tokensFrom_eq 0 [] cs
  by_cases hcut : ∃ t ∈ tokensFrom 0 [] cs, t.unterminated = true
  · obtain ⟨front, start, loose, tail, hcut⟩ := cut_of_unterminated 0 [] cs hcut
    obtain ⟨before, run, -, rfl, hrun⟩ := hcut.allStray
    obtain ⟨eof', hend⟩ := tokensFrom_of_unterminated hcut.scan start run.reverse
    refine .cut front start run tail (fun t ht => ⟨hproper t ?_, hcut.whole t ht⟩) hcut hrun
    have hsplit := htokens.symm.trans hcut.tokens
    rw [hend, List.append_cons front] at hsplit
    rw [(List.append_inj' hsplit rfl).1]
    exact List.mem_append_left _ ht
  · have hwhole : ∀ t ∈ tokensFrom 0 [] cs, t.unterminated = false := by
      intro t ht
      by_contra hun
      exact hcut ⟨t, ht, Bool.eq_true_of_not_eq_false hun⟩
    obtain ⟨front, eof', heq, hmore⟩ := tokensFrom_append_newline 0 [] cs hwhole
    obtain ⟨rfl, hlast⟩ := List.append_inj' (heq.symm.trans htokens) rfl
    cases hlast
    refine .whole front _ heof (fun t ht => ⟨hproper t ht, hwhole t ?_⟩) heq fun more => ?_
    · rw [heq]
      exact List.mem_append_left _ ht
    · rw [hmore, tokensFrom_newline]
      simp

theorem run_loose (r : Reading) (pos : Nat) {loose : List Char} (hloose : loose ≠ [])
    (cs : List Char) : ∃ f, r.run (tokensFrom pos loose cs) = (r, some f) := by
  have hstrays {loose : List Char} (h : loose ≠ []) (pos : Nat) :
      ∃ t, strays pos loose = [t] ∧ t.kind = .error := by
    obtain ⟨c, loose, rfl⟩ := List.exists_cons_of_ne_nil h
    exact ⟨_, rfl, rfl⟩
  have hfirst {t : Token} (ht : t.kind = .error) (ts : List Token) :
      ∃ f, r.run (t :: ts) = (r, some f) := by
    have hstep : r.step t = .error ⟨.unrecognized t.text t.unterminated, t.span⟩ := by
      unfold step
      rw [ht]
    exact ⟨_, run_error hstep ts⟩
  fun_induction tokensFrom pos loose cs with
  | case1 pos stray =>
    obtain ⟨t, hstrays, ht⟩ := hstrays hloose pos
    rw [hstrays]
    exact hfirst ht _
  | case2 pos stray c tail start kind piece rest h stop token ih =>
    obtain ⟨t, hstrays, ht⟩ := hstrays hloose pos
    rw [hstrays, List.append_assoc]
    exact hfirst ht _
  | case3 pos stray c tail start h stop => exact hfirst rfl _
  | case4 pos stray c tail h ih => exact ih (by simp)

theorem run_whole {cs : List Char} {r : Reading} (h : start.run (tokensFrom 0 [] cs) = (r, none))
    (more : List Char) : r.frames = [] ∧
      start.run (tokensFrom 0 [] (cs ++ '\n' :: more)) =
        r.run ((tokensFrom 0 [] more).map (Token.shift (Text.byteLength cs + 1))) := by
  cases ends cs with
  | whole front eof heof hfront htokens hmore =>
    rw [htokens] at h
    have hlast := run_eof start front heof
    rw [h] at hlast
    obtain ⟨hreading, hfault⟩ := hlast
    obtain ⟨hnone, hopen⟩ := hfault.mp rfl
    have hrun : start.run front = (r, none) := Prod.ext hreading.symm hnone
    rw [hrun] at hopen
    rw [hmore, run_append, hrun]
    exact ⟨hopen, rfl⟩
  | cut front at' run tail hfront hcut hrun =>
    exfalso
    obtain ⟨eof, hend⟩ := tokensFrom_of_unterminated hcut.scan at' run.reverse
    rw [hcut.tokens, hend, run_append] at h
    split at h
    · cases h
    · cases h

theorem run_string_newline {tail : List Char} (h : scan tail = .unterminated) (r : Reading)
    (pos : Nat) (loose : List Char) :
    ∃ f, r.run (tokensFrom pos loose (tail ++ ['\n'])) = (r, some f) := by
  obtain ⟨body, rfl, hbody⟩ := unterminated_of_scan h
  have hend : stringEnd (body ++ ['\n']) = .unterminated ∨ stringEnd (body ++ ['\n']) = .broken := by
    obtain ⟨front, hfront, rfl | rfl⟩ := split_of_unterminated hbody
    · rw [hfront]
      exact .inl rfl
    · rw [List.append_assoc, hfront]
      exact .inr rfl
  rw [List.cons_append]
  rcases hend with hend | hend
  · have hscan : scan ('"' :: (body ++ ['\n'])) = .unterminated := by
      rw [scan_quote, scanText, hend]
    obtain ⟨eof, htokens⟩ := tokensFrom_of_unterminated hscan pos loose
    rw [htokens]
    exact ⟨_, run_error rfl _⟩
  · have hscan : scan ('"' :: (body ++ ['\n'])) = .stray := by
      rw [scan_quote, scanText, hend]
      rfl
    rw [tokensFrom_of_stray hscan]
    exact run_loose r pos (by simp) _

theorem run_of_newline {cs : List Char} {r : Reading}
    (h : start.run (tokensFrom 0 [] (cs ++ ['\n'])) = (r, none)) :
    start.run (tokensFrom 0 [] cs) = (r, none) := by
  cases ends cs with
  | whole front eof heof hfront htokens hmore =>
    obtain ⟨eof', heof', hend⟩ := tokensFrom_nil 0
    have hlast := run_eof start front heof
    have hshift : (eof'.shift (Text.byteLength cs + 1)).kind = .eof := heof'
    have hlast' := run_eof start front hshift
    rw [hmore, hend, List.map_singleton] at h
    rw [h] at hlast'
    rw [htokens]
    exact Prod.ext (hlast.1.trans hlast'.1.symm) (hlast.2.mpr (hlast'.2.mp rfl))
  | cut front at' run tail hfront hcut hrun =>
    exfalso
    rw [hcut.append _ (.inr (.newline [])), run_append] at h
    split at h
    · next r' _ =>
      obtain ⟨f, hfault⟩ := run_string_newline hcut.scan r' at' run.reverse
      rw [hfault] at h
      cases h
    · cases h

theorem run_early_fault {cs : List Char} {r : Reading} {f : LocatedFault}
    (h : start.run (tokensFrom 0 [] cs) = (r, some f)) (hf : f.fault.isPartial = false)
    (more : List Char) : start.run (tokensFrom 0 [] (cs ++ '\n' :: more)) = (r, some f) := by
  cases ends cs with
  | whole front eof heof hfront htokens hmore =>
    rw [htokens, run_append] at h
    rw [hmore, run_append]
    split at h
    · next r' hrun =>
      have hstep : r'.step eof =
          if r'.frames.isEmpty then .ok r' else .error ⟨.endOfInput, eof.span⟩ := by
        unfold step
        rw [heof]
      split at hstep
      · rw [run_cons hstep] at h
        cases h
      · rw [run_error hstep] at h
        cases h
        cases hf
    · exact h
  | cut front at' run tail hfront hcut hrun =>
    obtain ⟨eof, hend⟩ := tokensFrom_of_unterminated hcut.scan at' run.reverse
    rw [hcut.tokens, hend, run_append] at h
    rw [hcut.append _ (.inr (.newline more)), run_append]
    split at h
    · cases h
      cases hf
    · exact h

end Reading

namespace Source

theorem parse_eq (src : Source) : src.parse =
    { trees := (Reading.start.run (Token.tokenize src.code)).1.trees.reverse,
      error := (Reading.start.run (Token.tokenize src.code)).2.map src.locate } := rfl

theorem parse?_eq (src : Source) :
    src.parse? = match Reading.start.run (Token.tokenize src.code) with
      | (r, none) => .ok r.trees.reverse
      | (_, some f) => .error (src.locate f) := by
  unfold parse? parse
  rcases Reading.start.run (Token.tokenize src.code) with ⟨r, _ | f⟩ <;> rfl

theorem parse?_eq_ok {src : Source} {es : List Expr} :
    src.parse? = .ok es ↔
      ∃ r, Reading.start.run (Token.tokenize src.code) = (r, none) ∧ es = r.trees.reverse := by
  rw [parse?_eq]
  rcases Reading.start.run (Token.tokenize src.code) with ⟨r, _ | f⟩
  · simp [eq_comm]
  · simp

theorem parse?_eq_error {src : Source} {e : ParseError} :
    src.parse? = .error e ↔
      ∃ r f, Reading.start.run (Token.tokenize src.code) = (r, some f) ∧ e = src.locate f := by
  rw [parse?_eq]
  rcases Reading.start.run (Token.tokenize src.code) with ⟨r, _ | f⟩
  · simp
  · simp [eq_comm]

variable {name code : String}

theorem tokenize_append_newline (code more : String) :
    Token.tokenize (code ++ "\n" ++ more) =
      Token.tokensFrom 0 [] (code.toList ++ '\n' :: more.toList) := by
  unfold Token.tokenize
  simp

/-- Text after a line feed is read as if it stood alone. -/
theorem parse?_append_newline {es es' : List Expr} (h : parse? ⟨name, code⟩ = .ok es)
    (more : String) : parse? ⟨name, code ++ "\n" ++ more⟩ = .ok es' ↔
      ∃ es'', parse? ⟨name, more⟩ = .ok es'' ∧ es' = es ++ es'' := by
  obtain ⟨r, hrun, rfl⟩ := parse?_eq_ok.mp h
  obtain ⟨hopen, hlong⟩ := Reading.run_whole hrun more.toList
  obtain ⟨frames, trees⟩ := r
  cases hopen
  have hstart : Reading.mk [] trees =
      Reading.start.later (Text.byteLength code.toList + 1) trees := rfl
  rw [hstart, Reading.run_later] at hlong
  rw [parse?_eq, parse?_eq, tokenize_append_newline, hlong, Token.tokenize]
  rcases Reading.start.run (Token.tokensFrom 0 [] more.toList) with ⟨r, _ | f⟩
  · simp [Reading.later, eq_comm]
  · simp

theorem parse?_name {es : List Expr} (h : parse? ⟨name, code⟩ = .ok es) (name' : String) :
    parse? ⟨name', code⟩ = .ok es := by
  obtain ⟨r, hrun, hes⟩ := parse?_eq_ok.mp h
  exact parse?_eq_ok.mpr ⟨r, hrun, hes⟩

theorem parse?_of_append_newline {es : List Expr} (h : parse? ⟨name, code ++ "\n"⟩ = .ok es) :
    parse? ⟨name, code⟩ = .ok es := by
  obtain ⟨r, hrun, rfl⟩ := parse?_eq_ok.mp h
  unfold Token.tokenize at hrun
  rw [String.toList_append] at hrun
  exact parse?_eq_ok.mpr ⟨r, Reading.run_of_newline hrun, rfl⟩

/-- What is wrong before the end of a text stays wrong. -/
theorem parse?_append_error {e : ParseError} (h : parse? ⟨name, code⟩ = .error e)
    (he : e.isPartial = false) (more : String) :
    parse? ⟨name, code ++ "\n" ++ more⟩ =
      .error { e with source := ⟨name, code ++ "\n" ++ more⟩ } := by
  obtain ⟨r, f, hrun, rfl⟩ := parse?_eq_error.mp h
  have hlong := Reading.run_early_fault hrun he more.toList
  rw [parse?_eq, tokenize_append_newline, hlong]
  rfl

/-- Lines after a text that parses are read as if they stood alone: their trees come after those of the
text, and their error is the same but for its place. An error that does not lie at the end of the text
is the error of every longer text, after the same trees. -/
theorem parse_append_lines (name code more : String) :
    let first := parse ⟨name, code⟩
    let second := parse ⟨name, more⟩
    let both := parse ⟨name, code ++ "\n" ++ more⟩
    (first.error = none →
      both.trees = first.trees ++ second.trees ∧
      both.error = second.error.map fun e =>
        { e with source := ⟨name, code ++ "\n" ++ more⟩
                 span := e.span.shift (Text.byteLength code.toList + 1) }) ∧
    ∀ e, first.error = some e → e.isPartial = false →
      both.trees = first.trees ∧
      both.error = some { e with source := ⟨name, code ++ "\n" ++ more⟩ } := by
  intro first second both
  have hboth : both = parse ⟨name, code ++ "\n" ++ more⟩ := rfl
  have hsecond : second = parse ⟨name, more⟩ := rfl
  rw [parse_eq, tokenize_append_newline] at hboth
  rw [parse_eq, Token.tokenize] at hsecond
  rcases hrun : Reading.start.run (Token.tokensFrom 0 [] code.toList) with ⟨r, fault⟩
  have hfirst : first = { trees := r.trees.reverse, error := fault.map (locate ⟨name, code⟩) } := by
    change parse _ = _
    rw [parse_eq, Token.tokenize, hrun]
  refine ⟨fun hnone => ?_, fun e he hearly => ?_⟩
  · obtain rfl : fault = none := by
      rw [hfirst] at hnone
      exact Option.map_eq_none_iff.mp hnone
    obtain ⟨hopen, hlong⟩ := Reading.run_whole hrun more.toList
    obtain ⟨frames, trees⟩ := r
    cases hopen
    have hstart : Reading.mk [] trees =
        Reading.start.later (Text.byteLength code.toList + 1) trees := rfl
    rw [hstart, Reading.run_later] at hlong
    rw [hboth, hlong, hfirst, hsecond]
    refine ⟨by simp [Reading.later], ?_⟩
    rw [Option.map_map, Option.map_map]
    rfl
  · rw [hfirst] at he
    obtain ⟨f, rfl, rfl⟩ := Option.map_eq_some_iff.mp he
    rw [hboth, Reading.run_early_fault hrun hearly more.toList, hfirst]
    exact ⟨rfl, rfl⟩

end Source

end EventTally
