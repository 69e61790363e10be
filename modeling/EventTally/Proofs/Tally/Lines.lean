import EventTally.Proofs.Codec
import EventTally.Proofs.Json.Complete
import EventTally.Proofs.Tally.Feed

/-! # The lines of a feed

A feed that ends without fault has applied, for each line that is not blank, the event of the object that
the line starts with. A line that does not start with an object ends the feed with a fault that names the
line, and leaves no trace (`feedUntil_objects`). What stands after the object is not looked at
(`readLine_object`), so that a line is known to be nothing but its object only if nothing else follows.
-/

namespace EventTally

namespace Text

/-- Nothing but white space. -/
def Blank (cs : List Char) : Prop := ∀ c ∈ cs, isBlank c = true

instance (cs : List Char) : Decidable (Blank cs) :=
  List.decidableBAll (fun c => isBlank c = true) cs

theorem Blank.append {cs ds : List Char} (hcs : Blank cs) (hds : Blank ds) : Blank (cs ++ ds) :=
  List.forall_mem_append.mpr ⟨hcs, hds⟩

theorem dropWhile_of_blank {cs : List Char} (h : Blank cs) : cs.dropWhile isBlank = [] :=
  List.dropWhile_eq_nil_iff.mpr h

theorem takeWhile_blank (cs : List Char) : Blank (cs.takeWhile isBlank) :=
  List.all_eq_true.mp List.all_takeWhile

theorem trimChars_spec (cs : List Char) :
    ∃ after, cs.dropWhile isBlank = trimChars cs ++ after ∧ Blank after := by
  have hsplit := congrArg List.reverse
    (List.takeWhile_append_dropWhile (p := isBlank) (l := (cs.dropWhile isBlank).reverse))
  rw [List.reverse_append, List.reverse_reverse] at hsplit
  exact ⟨_, hsplit.symm, fun c hc => takeWhile_blank _ c (List.mem_reverse.mp hc)⟩

theorem trimChars_eq_nil_iff {cs : List Char} : trimChars cs = [] ↔ Blank cs := by
  constructor
  · intro h
    obtain ⟨after, hdrop, hafter⟩ := trimChars_spec cs
    rw [h, List.nil_append] at hdrop
    rw [← List.takeWhile_append_dropWhile (p := isBlank) (l := cs), hdrop]
    exact (takeWhile_blank cs).append hafter
  · intro h
    unfold trimChars
    rw [dropWhile_of_blank h]
    rfl

end Text

theorem Json.Gap.blank {cs : List Char} (h : Json.Gap cs) : Text.Blank cs := by
  intro c hc
  have hspace := h c hc
  unfold Json.isSpace at hspace
  simp only [Bool.or_eq_true, decide_eq_true_eq] at hspace
  rcases hspace with ((rfl | rfl) | rfl) | rfl <;> rfl

namespace Event

theorem parse_eq_ok {line : List Char} {ev : Event} (h : parse line = .ok ev) :
    ∃ fields rest, Json.readFirst line = some (.obj fields, rest) ∧ ofJson (.obj fields) = .ok ev := by
  unfold parse at h
  split at h
  · cases h
  · next j rest hread =>
    obtain ⟨ev', hev', hcheck⟩ := Codec.bind_eq_ok h
    have hsame : ev' = ev ∧ ev'.model ≠ "" := by
      unfold check at hcheck
      split at hcheck
      · cases hcheck
      · next hmodel =>
        split at hcheck
        · cases hcheck
        · exact ⟨Except.ok.inj hcheck, hmodel⟩
    obtain ⟨rfl, hmodel⟩ := hsame
    cases j with
    | obj fields => exact ⟨fields, rest, hread, hev'⟩
    | null =>
      cases hev'
      exact absurd rfl hmodel
    | bool _ | num _ | str _ | arr _ => cases hev'

end Event

namespace Runner

open Text (Blank byteLength splitLines)

/-- But for white space before it, the line is an object with `after` behind it. -/
def Starts (line : List Char) (fields : Fields) (after : List Char) : Prop :=
  ∃ before object, line = before ++ object ++ after ∧ Blank before ∧ Json.Spells (.obj fields) object

/-- The line is one object, with white space around it. -/
def IsObject (line : List Char) (fields : Fields) : Prop := ∃ after, Starts line fields after ∧ Blank after

/-- Something else than white space stands after an object that the line starts with. -/
def Trails (line : List Char) : Prop := ∃ fields after, Starts line fields after ∧ ¬ Blank after

theorem chopReturn_spec (line : List Char) : ∃ after, line = chopReturn line ++ after ∧ Blank after := by
  unfold chopReturn
  split
  · next rest h =>
    refine ⟨['\r'], ?_, List.forall_mem_singleton.mpr rfl⟩
    have hline := congrArg List.reverse h
    rwa [List.reverse_reverse, List.reverse_cons] at hline
  · exact ⟨[], (List.append_nil line).symm, nofun⟩

theorem text_eq_nil_iff {line : List Char} : Text.trimChars (chopReturn line) = [] ↔ Blank line := by
  obtain ⟨after, hline, hafter⟩ := chopReturn_spec line
  rw [Text.trimChars_eq_nil_iff]
  constructor
  · intro h
    rw [hline]
    exact h.append hafter
  · intro h
    rw [hline] at h
    exact (List.forall_mem_append.mp h).1

theorem text_spec (line : List Char) :
    ∃ after, line.dropWhile Text.isBlank = Text.trimChars (chopReturn line) ++ after ∧ Blank after := by
  by_cases hblank : Blank line
  · rw [Text.dropWhile_of_blank hblank, text_eq_nil_iff.mpr hblank]
    exact ⟨[], rfl, nofun⟩
  · obtain ⟨after, hline, hafter⟩ := chopReturn_spec line
    obtain ⟨after', hdrop, hafter'⟩ := Text.trimChars_spec (chopReturn line)
    have hne : ((chopReturn line).dropWhile Text.isBlank).isEmpty = false := by
      rw [List.isEmpty_eq_false_iff]
      intro hnil
      refine hblank ?_
      rw [hline]
      exact Blank.append (List.dropWhile_eq_nil_iff.mp hnil) hafter
    refine ⟨after' ++ after, ?_, hafter'.append hafter⟩
    rw [← List.append_assoc, ← hdrop]
    conv_lhs => rw [hline, List.dropWhile_append, hne]
    rfl

theorem starts_of_parse {line : List Char} {ev : Event}
    (h : Event.parse (Text.trimChars (chopReturn line)) = .ok ev) :
    ∃ fields, (∃ after, Starts line fields after) ∧ Event.ofJson (.obj fields) = .ok ev ∧
      (¬ Trails line → IsObject line fields) := by
  obtain ⟨fields, rest, hread, hev⟩ := Event.parse_eq_ok h
  obtain ⟨gap, object, hgap, hobject, htext⟩ := Json.spells_readFirst hread
  obtain ⟨after, hdrop, -⟩ := text_spec line
  have hstarts : Starts line fields (rest ++ after) := by
    refine ⟨line.takeWhile Text.isBlank ++ gap, object, ?_,
      (Text.takeWhile_blank line).append hgap.blank, hobject⟩
    rw [htext] at hdrop
    conv_lhs => rw [← List.takeWhile_append_dropWhile (p := Text.isBlank) (l := line), hdrop]
    simp
  refine ⟨fields, ⟨_, hstarts⟩, hev, fun hplain => ⟨_, hstarts, ?_⟩⟩
  by_contra hafter
  exact hplain ⟨fields, _, hstarts, hafter⟩

theorem Starts.dropWhile {line : List Char} {fields : Fields} {after : List Char}
    (h : Starts line fields after) :
    ∃ object, line.dropWhile Text.isBlank = object ++ after ∧ Json.Spells (.obj fields) object := by
  obtain ⟨before, object, rfl, hbefore, hobject⟩ := h
  refine ⟨object, ?_, hobject⟩
  obtain ⟨inside, rfl⟩ := hobject.braces
  rw [List.append_assoc, List.dropWhile_append_of_pos hbefore]
  rfl

theorem Starts.text {line : List Char} {fields : Fields} {after : List Char}
    (h : Starts line fields after) :
    ∃ object after', Text.trimChars (chopReturn line) = object ++ after' ∧
      Json.Spells (.obj fields) object := by
  obtain ⟨object, hobject, hspells⟩ := h.dropWhile
  obtain ⟨tail, hdrop, htail⟩ := text_spec line
  rw [hobject] at hdrop
  obtain ⟨after', htext, -⟩ | ⟨last, hcut, hlast⟩ := List.append_eq_append_iff.mp hdrop
  · exact ⟨object, after', htext, hspells⟩
  · -- The closing brace cannot be in the white space that is cut off.
    obtain ⟨inside, hinside⟩ := hspells.braces
    rcases List.eq_nil_or_concat last with rfl | ⟨front, c, rfl⟩
    · exact ⟨object, [], by rw [hcut, List.append_nil, List.append_nil], hspells⟩
    · rw [hinside, ← List.cons_append, List.concat_eq_append, ← List.append_assoc] at hcut
      obtain ⟨-, hc⟩ := List.append_inj' hcut rfl
      have hblank := htail c (by rw [hlast]; simp)
      rw [← (List.cons.inj hc).1] at hblank
      cases hblank

theorem not_trails {line : List Char} (hlength : line.length ≤ Json.maxDepth)
    (hread : ∀ p ∈ Json.readFirst (line.dropWhile Text.isBlank), Blank p.2) : ¬ Trails line := by
  rintro ⟨fields, after, hstarts, hafter⟩
  obtain ⟨object, hdrop, hobject⟩ := hstarts.dropWhile
  have hdepth := hobject.depth_le
  have hlength' : (line.dropWhile Text.isBlank).length ≤ line.length :=
    (List.dropWhile_sublist _).length_le
  rw [hdrop, List.length_append] at hlength'
  rw [hdrop] at hread
  exact hafter (hread _ (Json.readFirst_of_spells hobject (by omega) nofun after))

theorem readLine_eq_ok {cancelled : Bool} {number : Nat} {line : List Char} {found : Option Event}
    (h : readLine cancelled number line = .ok found) :
    (Blank line ∧ found = none) ∨ ∃ ev, ¬ Blank line ∧
      Event.parse (Text.trimChars (chopReturn line)) = .ok ev ∧ found = some ev := by
  unfold readLine at h
  split at h
  · cases h
  · dsimp only at h
    split at h
    · next hempty =>
      cases h
      exact .inl ⟨text_eq_nil_iff.mp (List.isEmpty_iff.mp hempty), rfl⟩
    · next hempty =>
      have hblank : ¬ Blank line := fun h => hempty (List.isEmpty_iff.mpr (text_eq_nil_iff.mpr h))
      split at h
      · cases h
      · split at h
        · cases h
        · next hparse =>
          cases h
          exact .inr ⟨_, hblank, hparse, rfl⟩

theorem readLine_of_not_isObject (number : Nat) {line : List Char} (hplain : ¬ Trails line)
    (hblank : ¬ Blank line) (hobject : ∀ fields, ¬ IsObject line fields)
    (hlength : byteLength line ≤ maxLine) : ∃ f, readLine false number line = .error (.event number f) := by
  have hempty : (Text.trimChars (chopReturn line)).isEmpty = false := by
    rw [List.isEmpty_eq_false_iff]
    exact fun h => hblank (text_eq_nil_iff.mp h)
  unfold readLine
  rw [if_neg (Nat.not_lt.mpr hlength)]
  dsimp only
  rw [hempty]
  rcases hparse : Event.parse (Text.trimChars (chopReturn line)) with f | ev
  · exact ⟨f, rfl⟩
  · obtain ⟨fields, -, -, hfields⟩ := starts_of_parse hparse
    exact absurd (hfields hplain) (hobject fields)

/-- What stands after an object on its line makes no difference. -/
theorem readLine_object (number : Nat) {line : List Char} {fields : Fields} {after : List Char}
    (h : Starts line fields after) (hdepth : (Json.obj fields).depth ≤ Json.maxDepth)
    (hlength : byteLength line ≤ maxLine) :
    readLine false number line =
      match Event.ofJson (.obj fields) >>= Event.check with
      | .error f => .error (.event number f)
      | .ok ev => .ok (some ev) := by
  obtain ⟨object, after', htext, hobject⟩ := h.text
  have hempty : (object ++ after').isEmpty = false := by
    obtain ⟨inside, rfl⟩ := hobject.braces
    rfl
  unfold readLine
  rw [if_neg (Nat.not_lt.mpr hlength)]
  dsimp only
  rw [htext, hempty]
  unfold Event.parse
  rw [Json.readFirst_of_spells hobject hdepth nofun after']
  rfl

/-- The tallies once all of them have been given an event. -/
def after (r : Runner) (ev : Event) : Runner where
  tallies := (applyAll ev r.tallies r.world).tallies
  world := (applyAll ev r.tallies r.world).world

theorem feedLines_eq_foldl (cancelled : Nat → Bool) (number : Nat) (lines : List (List Char))
    (r : Runner) (h : (feedLines cancelled number lines r).1.fault = none) :
    (agenda cancelled number lines).2 = none ∧
      (feedLines cancelled number lines r).1.events = (agenda cancelled number lines).1.length ∧
      (feedLines cancelled number lines r).2 = (agenda cancelled number lines).1.foldl after r := by
  induction lines generalizing number r with
  | nil => exact ⟨rfl, rfl, rfl⟩
  | cons line rest ih =>
    rw [feedLines] at h ⊢
    rw [agenda]
    rcases hline : readLine (cancelled number) number line with fault | _ | ev
    · rw [hline] at h
      cases h
    · rw [hline] at h
      exact ih (number + 1) r h
    · rw [hline] at h
      dsimp only at h ⊢
      rcases hstop : (applyAll ev r.tallies r.world).stop with _ | reason
      · rw [hstop] at h
        obtain ⟨hnone, hevents, hrunner⟩ := ih (number + 1) (r.after ev) h
        exact ⟨hnone, congrArg (· + 1) hevents, hrunner⟩
      · rw [hstop] at h
        cases h

theorem objects_agenda (cancelled : Nat → Bool) (number : Nat) {lines : List (List Char)}
    (h : (agenda cancelled number lines).2 = none) :
    List.Forall₂
      (fun line ev => ∃ fields, (∃ after, Starts line fields after) ∧ Event.ofJson (.obj fields) = .ok ev ∧
        (¬ Trails line → IsObject line fields))
      (lines.filter fun line => ¬ Blank line) (agenda cancelled number lines).1 := by
  induction lines generalizing number with
  | nil => exact .nil
  | cons line rest ih =>
    rw [agenda] at h ⊢
    rcases hline : readLine (cancelled number) number line with fault | _ | ev
    · rw [hline] at h
      cases h
    · rw [hline] at h
      obtain ⟨hblank, -⟩ | ⟨-, -, -, ⟨⟩⟩ := readLine_eq_ok hline
      rw [List.filter_cons_of_neg (by simpa using hblank)]
      exact ih (number + 1) h
    · rw [hline] at h
      obtain ⟨-, ⟨⟩⟩ | ⟨_, hblank, hparse, ⟨⟩⟩ := readLine_eq_ok hline
      rw [List.filter_cons_of_pos (by simpa using hblank)]
      exact .cons (starts_of_parse hparse) (ih (number + 1) h)

theorem feedLines_append (cancelled : Nat → Bool) (number : Nat) (front : List (List Char))
    (line : List Char) (back : List (List Char)) (r : Runner)
    (h : (feedLines cancelled number front r).1.fault = none) {fault : FeedFault}
    (hline : readLine (cancelled (number + front.length)) (number + front.length) line = .error fault) :
    feedLines cancelled number (front ++ line :: back) r =
      ({ (feedLines cancelled number front r).1 with fault := some fault },
        (feedLines cancelled number front r).2) := by
  induction front generalizing number r with
  | nil =>
    change readLine (cancelled number) number line = _ at hline
    simp only [List.nil_append, feedLines, hline]
  | cons first front ih =>
    rw [List.length_cons, Nat.add_comm front.length, ← Nat.add_assoc] at hline
    rw [List.cons_append, feedLines]
    rw [feedLines] at h ⊢
    rcases hfirst : readLine (cancelled number) number first with fault' | _ | ev
    · rw [hfirst] at h
      cases h
    · rw [hfirst] at h
      exact ih (number + 1) r h hline
    · rw [hfirst] at h
      dsimp only at h ⊢
      rcases hstop : (applyAll ev r.tallies r.world).stop with _ | reason
      · rw [hstop] at h
        dsimp only at h ⊢
        rw [ih (number + 1) _ h hline]
      · rw [hstop] at h
        cases h

/-- A feed that ends without fault has applied, for each line that is not blank, the event of the object
that the line starts with; and the line is nothing but that object unless something else than white space
stands after an object. Without such a trail any line that is no object ends the feed with a fault that
names the line, and the tallies are as the lines before left them. -/
theorem feedUntil_objects (cancelled : Nat → Bool) (text : List Char) (r : Runner) :
    ((r.feedUntil cancelled text).1.fault = none → ∃ evs,
      List.Forall₂
        (fun line ev => ∃ fields, (∃ after, Starts line fields after) ∧ Event.ofJson (.obj fields) = .ok ev ∧
          (¬ Trails line → IsObject line fields))
        ((splitLines text).filter fun line => ¬ Blank line) evs ∧
      (r.feedUntil cancelled text).1.events = evs.length ∧
      (r.feedUntil cancelled text).2 = evs.foldl after r) ∧
    ∀ front line back, splitLines text = front ++ line :: back → ¬ Blank line → ¬ Trails line →
      (∀ fields, ¬ IsObject line fields) → byteLength line ≤ maxLine →
      cancelled (front.length + 1) = false → (feedLines cancelled 1 front r).1.fault = none →
      ∃ f, r.feedUntil cancelled text =
        ({ (feedLines cancelled 1 front r).1 with fault := some (.event (front.length + 1) f) },
          (feedLines cancelled 1 front r).2) := by
  constructor
  · intro h
    obtain ⟨hnone, hevents, hrunner⟩ := feedLines_eq_foldl cancelled 1 (splitLines text) r h
    exact ⟨_, objects_agenda cancelled 1 hnone, hevents, hrunner⟩
  · intro front line back hlines hblank hplain hobject hlength hcancelled hfront
    obtain ⟨f, hf⟩ := readLine_of_not_isObject (front.length + 1) hplain hblank hobject hlength
    refine ⟨f, ?_⟩
    unfold feedUntil
    rw [hlines]
    apply feedLines_append cancelled 1 front line back r hfront
    rw [Nat.add_comm 1, hcancelled]
    exact hf

/-- An event with white space around it, a blank line, and a line that is no object. -/
def sampleLines : List Char := " \x7b\"model\":\"m\",\"new\":\x7b\"n\":2\x7d\x7d \r\n\t\n[]".toList

theorem feedUntil_objects_sample :
    (feedLines (fun _ => false) 1 ((splitLines sampleLines).take 2) sample).1.events = 1 ∧
      (∀ fields, ¬ IsObject ['[', ']'] fields) ∧
      ∃ f, sample.feedUntil (fun _ => false) sampleLines =
        ({ (feedLines (fun _ => false) 1 ((splitLines sampleLines).take 2) sample).1 with
            fault := some (.event 3 f) },
          (feedLines (fun _ => false) 1 ((splitLines sampleLines).take 2) sample).2) := by
  have hbrackets : ∀ fields, ¬ IsObject ['[', ']'] fields := by
    rintro fields ⟨after, hstarts, -⟩
    obtain ⟨object, hdrop, hobject⟩ := hstarts.dropWhile
    obtain ⟨inside, rfl⟩ := hobject.braces
    cases hdrop
  have hplain : ¬ Trails ['[', ']'] := not_trails (by decide +kernel) (by decide +kernel)
  exact ⟨by decide +kernel, hbrackets,
    (feedUntil_objects _ sampleLines sample).2 _ ['[', ']'] [] (by decide +kernel) (by decide) hplain
      hbrackets (by decide) rfl (Option.isNone_iff_eq_none.mp (by decide +kernel))⟩

end Runner

end EventTally
