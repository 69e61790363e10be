import EventTally.LanguageServer.Position
import Mathlib.Algebra.Ring.Int.Defs
import Mathlib.Data.List.Induction

/-! # Positions and offsets

The position of a boundary between characters is the number of lines that end before it and the width
of what stands before it on its line, and later offsets never have earlier positions. The offset of that
position is the boundary again, unless a carriage return and a line feed stand right before it: the line
feed takes no room on the new line, and the offset that is found lies before it
(`positions_of_boundaries`).
-/

namespace EventTally.LanguageServer.Position

open Text (byteLength byteLength_cons byteLength_append)

/-- The number of line ends in a text. -/
def lineEnds : List Char → Nat
  | [] => 0
  | '\r' :: '\n' :: cs => lineEnds cs + 1
  | c :: cs => if c = '\r' ∨ c = '\n' then lineEnds cs + 1 else lineEnds cs

/-- What stands after the last line end. -/
def lastLine (cs : List Char) : List Char :=
  (cs.reverse.takeWhile fun c => c ≠ '\r' && c ≠ '\n').reverse

/-- The number of code units of a text. -/
def width (cs : List Char) : Int := (cs.map units).sum

def endsInReturn (cs : List Char) : Bool := cs.getLast? = some '\r'

theorem endsInReturn_nil : endsInReturn [] = false := rfl

theorem endsInReturn_cons (c : Char) (cs : List Char) :
    endsInReturn (c :: cs) = if cs = [] then decide (c = '\r') else endsInReturn cs := by
  unfold endsInReturn
  cases cs with
  | nil => simp
  | cons d cs => simp [List.getLast?_cons_cons]

theorem lineEnds_cons (c : Char) (cs : List Char) :
    lineEnds (c :: cs) =
      lineEnds cs + if c = '\n' ∨ (c = '\r' ∧ cs.head? ≠ some '\n') then 1 else 0 := by
  cases cs with
  | nil => simp [lineEnds, or_comm]
  | cons d cs =>
    by_cases hpair : c = '\r' ∧ d = '\n'
    · obtain ⟨rfl, rfl⟩ := hpair
      simp [lineEnds]
    · rw [lineEnds]
      · grind
      · rintro cs' rfl ⟨⟩
        exact hpair ⟨rfl, rfl⟩

theorem lineEnds_snoc (cs : List Char) (c : Char) :
    lineEnds (cs ++ [c]) =
      lineEnds cs + if c = '\r' ∨ (c = '\n' ∧ endsInReturn cs = false) then 1 else 0 := by
  induction cs with
  | nil =>
    rw [List.nil_append, lineEnds_cons]
    simp [endsInReturn, or_comm]
  | cons d cs ih =>
    rw [List.cons_append, lineEnds_cons, lineEnds_cons, ih, endsInReturn_cons]
    cases cs with
    | nil =>
      simp only [List.nil_append, List.head?_cons, List.head?_nil, endsInReturn_nil]
      grind
    | cons d' cs =>
      rw [if_neg (List.cons_ne_nil d' cs)]
      exact Nat.add_right_comm _ _ _

theorem lastLine_snoc (cs : List Char) (c : Char) :
    lastLine (cs ++ [c]) = if c = '\r' ∨ c = '\n' then [] else lastLine cs ++ [c] := by
  unfold lastLine
  rw [List.reverse_append, List.reverse_singleton, List.singleton_append, List.takeWhile_cons]
  split <;> split <;> simp_all

/-- The position after some characters. -/
def passed (afterReturn : Bool) (p : Position) : List Char → Position
  | [] => p
  | c :: cs => passed (c = '\r') (p.next afterReturn c) cs

theorem passed_append (b : Bool) (p : Position) (front back : List Char) :
    passed b p (front ++ back) =
      passed (if front = [] then b else endsInReturn front) (passed b p front) back := by
  induction front generalizing b p with
  | nil => rfl
  | cons c front ih =>
    rw [List.cons_append, passed, ih, endsInReturn_cons]
    rfl

theorem lastLine_of_endsInReturn {cs : List Char} (h : endsInReturn cs = true) : lastLine cs = [] := by
  obtain ⟨front, rfl⟩ := List.getLast?_eq_some_iff.mp (of_decide_eq_true h)
  rw [lastLine_snoc, if_pos (.inl rfl)]

theorem passed_eq (cs : List Char) :
    passed false start cs = { line := lineEnds cs, character := width (lastLine cs) } := by
  induction cs using List.reverseRecOn with
  | nil => rfl
  | append_singleton cs c ih =>
    have hreturn : (if cs = [] then false else endsInReturn cs) = endsInReturn cs := by
      split
      · next h => rw [h]; rfl
      · rfl
    rw [passed_append, ih, hreturn, lineEnds_snoc, lastLine_snoc, passed, passed, next]
    split
    · next h => simp [h, width]
    · split
      · next h =>
        split
        · next hb => simp [h, hb, lastLine_of_endsInReturn hb, width]
        · next hb => simp [h, hb, width]
      · next h h' => simp [h, h', width]

theorem before_iff {p q : Position} :
    p.before q = true ↔ p.line < q.line ∨ (p.line = q.line ∧ p.character < q.character) := by
  unfold before
  simp

theorem not_before_self (p : Position) : p.before p = false := by
  simp [before]

theorem next_cases (p : Position) (b : Bool) (c : Char) :
    p.before (p.next b c) = true ∨ (b = true ∧ c = '\n' ∧ p.next b c = p) := by
  unfold next
  split
  · exact .inl (before_iff.mpr (.inl (by dsimp only; omega)))
  · split
    · next h =>
      split
      · next hb => exact .inr ⟨hb, h, rfl⟩
      · exact .inl (before_iff.mpr (.inl (by dsimp only; omega)))
    · refine .inl (before_iff.mpr (.inr ⟨rfl, ?_⟩))
      unfold units
      dsimp only
      split <;> omega

theorem before_of_not_before {p q r : Position} (hpq : p.before q = true) (hqr : r.before q = false) :
    p.before r = true := by
  rw [before_iff] at hpq ⊢
  rw [Bool.eq_false_iff, ne_eq, before_iff] at hqr
  omega

theorem not_before_passed (b : Bool) (p : Position) (cs : List Char) : (passed b p cs).before p = false := by
  induction cs generalizing b p with
  | nil => exact not_before_self p
  | cons c cs ih =>
    have hlater := ih (c = '\r') (p.next b c)
    rw [passed]
    rcases next_cases p b c with hbefore | ⟨-, -, hsame⟩
    · rw [Bool.eq_false_iff]
      intro h
      have := before_of_not_before hbefore hlater
      rw [before_iff] at h this
      omega
    · rwa [hsame] at hlater ⊢

/-- No characters, or one line feed after a carriage return, so that the position does not move. -/
def Stays (b : Bool) (cs : List Char) : Prop := cs = [] ∨ (b = true ∧ cs = ['\n'])

theorem before_passed {b : Bool} (p : Position) {cs : List Char} (h : ¬ Stays b cs) :
    p.before (passed b p cs) = true := by
  cases cs with
  | nil => exact absurd (.inl rfl) h
  | cons c cs =>
    rw [passed]
    rcases next_cases p b c with hbefore | ⟨hb, hc, hsame⟩
    · exact before_of_not_before hbefore (not_before_passed _ _ cs)
    · -- The characters after the line feed move the position.
      subst hc
      rw [hsame]
      cases cs with
      | nil => exact absurd (.inr ⟨hb, rfl⟩) h
      | cons d cs =>
        rw [passed]
        rcases next_cases p (decide ('\n' = '\r')) d with hbefore | ⟨hb, -, -⟩
        · exact before_of_not_before hbefore (not_before_passed _ _ cs)
        · cases hb

theorem stopAt_walk_cons (pass : Nat × Position → Bool) (b : Bool) (offset : Nat) (p : Position) (c : Char)
    (cs : List Char) : stopAt pass (walk b offset p (c :: cs)) =
      if pass (offset, p) then stopAt pass (walk (c = '\r') (offset + c.utf8Size) (p.next b c) cs)
      else (offset, p) := by
  cases cs <;> rfl

theorem stopAt_walk (pass : Nat × Position → Bool) (b : Bool) (offset : Nat) (p : Position)
    (cs : List Char) : ∃ front, (stopAt pass (walk b offset p cs)).2 = passed b p front := by
  induction cs generalizing b offset p with
  | nil => exact ⟨[], rfl⟩
  | cons c cs ih =>
    rw [stopAt_walk_cons]
    split
    · obtain ⟨front, hfront⟩ := ih (c = '\r') (offset + c.utf8Size) (p.next b c)
      exact ⟨c :: front, hfront⟩
    · exact ⟨[], rfl⟩

theorem stopAt_first {pass : Nat × Position → Bool} {b : Bool} {offset : Nat} {p : Position}
    {front back : List Char}
    (hpass : ∀ cs ds, front = cs ++ ds → ds ≠ [] → pass (offset + byteLength cs, passed b p cs) = true)
    (hstop : pass (offset + byteLength front, passed b p front) = false) :
    stopAt pass (walk b offset p (front ++ back)) = (offset + byteLength front, passed b p front) := by
  induction front generalizing b offset p with
  | nil =>
    cases back with
    | nil => rfl
    | cons c back =>
      rw [List.nil_append, stopAt_walk_cons]
      exact if_neg (Bool.eq_false_iff.mp hstop)
  | cons c front ih =>
    have hhere : pass (offset, p) = true := hpass [] (c :: front) rfl (List.cons_ne_nil _ _)
    have hnext (cs : List Char) : (offset + c.utf8Size + byteLength cs, passed (c = '\r') (p.next b c) cs) =
        (offset + byteLength (c :: cs), passed b p (c :: cs)) := by
      rw [byteLength_cons, Nat.add_assoc]
      rfl
    rw [List.cons_append, stopAt_walk_cons, if_pos hhere, ← hnext]
    refine ih (fun cs ds heq hne => ?_) ?_
    · rw [hnext]
      exact hpass (c :: cs) ds (congrArg (c :: ·) heq) hne
    · rwa [hnext]

theorem byteLength_pos {cs : List Char} (h : cs ≠ []) : 0 < byteLength cs := by
  cases cs with
  | nil => exact absurd rfl h
  | cons c cs => exact Nat.add_pos_left c.utf8Size_pos _

variable {text : String} {front back : List Char}

theorem ofOffset_boundary (htext : text.toList = front ++ back) :
    ofOffset text (byteLength front) = passed false start front := by
  unfold ofOffset places
  rw [htext, stopAt_first]
  · rintro cs ds rfl hne
    have := byteLength_pos hne
    simpa using this
  · simp

/-- The position of a text that does not end in a carriage return and a line feed is not the position of
a shorter one. -/
theorem toOffset_passed (htext : text.toList = front ++ back) (hpair : ¬ ['\r', '\n'] <:+ front) :
    toOffset text (passed false start front) = byteLength front := by
  unfold toOffset places
  rw [htext, stopAt_first]
  · exact Nat.zero_add _
  · rintro cs ds rfl hne
    rw [passed_append]
    refine before_passed _ fun hstays => ?_
    obtain hnil | ⟨hreturn, rfl⟩ := hstays
    · exact hne hnil
    · split at hreturn
      · cases hreturn
      · obtain ⟨cs, rfl⟩ := List.getLast?_eq_some_iff.mp (of_decide_eq_true hreturn)
        exact hpair ⟨cs, by simp⟩
  · exact not_before_self _

theorem toOffset_ofOffset (htext : text.toList = front ++ back) :
    toOffset text (ofOffset text (byteLength front)) =
      if ['\r', '\n'] <:+ front then byteLength front - 1 else byteLength front := by
  rw [ofOffset_boundary htext]
  split
  · next hpair =>
    -- The line feed does not move the position that the carriage return leads to.
    obtain ⟨cs, rfl⟩ := hpair
    have hsame : passed false start (cs ++ ['\r', '\n']) = passed false start (cs ++ ['\r']) := by
      rw [List.append_cons, passed_append _ _ (cs ++ ['\r'])]
      simp [endsInReturn, passed, next]
    have hshort : ¬ ['\r', '\n'] <:+ cs ++ ['\r'] := by
      rintro ⟨ds, hds⟩
      have hlast := congrArg List.getLast? hds
      simp at hlast
    have htext' : text.toList = cs ++ ['\r'] ++ '\n' :: back := by simpa using htext
    rw [hsame, toOffset_passed htext' hshort]
    rw [byteLength_append, byteLength_append]
    rfl
  · next hpair => exact toOffset_passed htext hpair

theorem stopAt_le {i j : Nat} (hij : i ≤ j) (b : Bool) (offset : Nat) (p : Position) (cs : List Char) :
    (stopAt (fun place => place.1 < j) (walk b offset p cs)).2.before
      (stopAt (fun place => place.1 < i) (walk b offset p cs)).2 = false := by
  induction cs generalizing b offset p with
  | nil => exact not_before_self p
  | cons c cs ih =>
    obtain ⟨front, hfront⟩ := stopAt_walk (fun place => place.1 < j) b offset p (c :: cs)
    by_cases hi : offset < i
    · rw [stopAt_walk_cons, stopAt_walk_cons, if_pos (decide_eq_true hi),
        if_pos (decide_eq_true (Nat.lt_of_lt_of_le hi hij))]
      exact ih _ _ _
    · rw [hfront, stopAt_walk_cons, if_neg (by simpa using hi)]
      exact not_before_passed b p front

/-- **Boundaries and positions.** The position of a boundary counts the line ends before it and the code
units since the last one. Its offset is the boundary again, or the place before the line feed if the
boundary comes right after a carriage return and a line feed. Positions of later offsets are not before
those of earlier ones. -/
theorem positions_of_boundaries (text : String) :
    (∀ front back, text.toList = front ++ back →
      ofOffset text (byteLength front) = { line := lineEnds front, character := width (lastLine front) } ∧
      toOffset text (ofOffset text (byteLength front)) =
        if ['\r', '\n'] <:+ front then byteLength front - 1 else byteLength front) ∧
    ∀ i j, i ≤ j → (ofOffset text j).before (ofOffset text i) = false := by
  refine ⟨fun front back htext => ⟨?_, toOffset_ofOffset htext⟩, fun i j hij => ?_⟩
  · rw [ofOffset_boundary htext, passed_eq]
  · exact stopAt_le hij false 0 start text.toList

/-- The first character of the second line is found at the line feed before it. -/
theorem positions_of_boundaries_return :
    "a\r\nb".toList = ['a', '\r', '\n'] ++ ['b'] ∧
    ofOffset "a\r\nb" 3 = { line := 1, character := 0 } ∧ toOffset "a\r\nb" { line := 1, character := 0 } = 2 ∧
    3 ≤ 4 ∧ (ofOffset "a\r\nb" 4).before (ofOffset "a\r\nb" 3) = false := by
  have htext : "a\r\nb".toList = ['a', '\r', '\n'] ++ ['b'] := by decide
  obtain ⟨hboundary, hmonotone⟩ := positions_of_boundaries "a\r\nb"
  obtain ⟨hposition, hoffset⟩ := hboundary _ _ htext
  have hposition : ofOffset "a\r\nb" 3 = { line := 1, character := 0 } := hposition
  have hoffset : toOffset "a\r\nb" (ofOffset "a\r\nb" 3) = 2 := hoffset
  rw [hposition] at hoffset
  exact ⟨htext, hposition, hoffset, by decide, hmonotone 3 4 (by decide)⟩

end EventTally.LanguageServer.Position
