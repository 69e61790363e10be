import EventTally.Proofs.Source.Continuation
import EventTally.Shell.Interact

/-! # Reading code line by line is reading it as a whole

The lines of a text are read in groups. A text that parses is cut where a group of lines parses: what
comes after is read as if it stood alone, and no front of a group parses or is wrong already. So the
pieces of code that the lines are read as have the trees of the text, in order.
-/

namespace EventTally.Shell

abbrev joined (lines : List String) : String := "\n".intercalate lines

theorem joined_append {front ls : List String} (hfront : front ≠ []) (hls : ls ≠ []) :
    joined (front ++ ls) = joined front ++ "\n" ++ joined ls := by
  induction front with
  | nil => exact absurd rfl hfront
  | cons l front ih =>
    cases front with
    | nil =>
      obtain ⟨l', ls, rfl⟩ := List.exists_cons_of_ne_nil hls
      rw [← String.toList_inj]
      simp
    | cons l' front =>
      have hrest := congrArg String.toList (ih (by simp))
      rw [← String.toList_inj]
      simp only [String.toList_intercalate, List.cons_append, List.map_cons, String.toList_append,
        List.intercalate_cons_cons, List.append_assoc] at hrest ⊢
      rw [hrest]

theorem joined_singleton (l : String) : joined [l] = l := by
  rw [← String.toList_inj]
  simp

theorem splitLines_cons (c : Char) (cs : List Char) :
    Text.splitLines (c :: cs) = if c = '\n' then [] :: Text.splitLines cs
      else match Text.splitLines cs with
        | [] => [[c]]
        | line :: rest => (c :: line) :: rest := rfl

theorem splitLines_ne_nil (cs : List Char) : Text.splitLines cs ≠ [] := by
  cases cs with
  | nil => nofun
  | cons c cs =>
    rw [splitLines_cons]
    split
    · nofun
    · split <;> nofun

theorem intercalate_splitLines (cs : List Char) :
    ['\n'].intercalate (Text.splitLines cs) = cs := by
  induction cs with
  | nil => rfl
  | cons c cs ih =>
    obtain ⟨line, rest, hlines⟩ := List.exists_cons_of_ne_nil (splitLines_ne_nil cs)
    rw [hlines] at ih
    rw [splitLines_cons, hlines]
    split
    · next hc =>
      rw [List.intercalate_cons_cons, ih, hc]
      rfl
    · cases rest with
      | nil =>
        rw [List.intercalate_singleton] at ih ⊢
        rw [ih]
      | cons line' rest =>
        rw [List.intercalate_cons_cons] at ih ⊢
        rw [List.cons_append, List.cons_append, ih]

theorem mem_of_mem_splitLines {cs l : List Char} {c : Char} (hl : l ∈ Text.splitLines cs)
    (hc : c ∈ l) : c ∈ cs := by
  induction cs generalizing l with
  | nil =>
    rw [List.mem_singleton.mp hl] at hc
    cases hc
  | cons d cs ih =>
    obtain ⟨line, rest, hlines⟩ := List.exists_cons_of_ne_nil (splitLines_ne_nil cs)
    rw [hlines] at ih
    rw [splitLines_cons, hlines] at hl
    split at hl
    · rcases List.mem_cons.mp hl with rfl | hl
      · cases hc
      · exact List.mem_cons_of_mem _ (ih hl hc)
    · rcases List.mem_cons.mp hl with rfl | hl
      · rcases List.mem_cons.mp hc with rfl | hc
        · exact List.mem_cons_self
        · exact List.mem_cons_of_mem _ (ih List.mem_cons_self hc)
      · exact List.mem_cons_of_mem _ (ih (List.mem_cons_of_mem _ hl) hc)

theorem chopLineEnding_line {cs : List Char} (h : '\r' ∉ cs) :
    Text.chopLineEnding (String.ofList cs ++ "\n") = String.ofList cs := by
  have hreverse : (String.ofList cs ++ "\n").toList.reverse = '\n' :: cs.reverse := by
    simp
  unfold Text.chopLineEnding
  rw [hreverse]
  split
  · next rest heq =>
    obtain ⟨-, hrest⟩ := List.cons.inj heq
    exact absurd (List.mem_reverse.mp (hrest ▸ List.mem_cons_self)) h
  · next heq =>
    obtain ⟨-, rfl⟩ := List.cons.inj heq
    rw [List.reverse_reverse]
  · next hne => exact absurd rfl (hne _)

theorem typedLines_eq {text : String} (h : '\r' ∉ text.toList) :
    ∃ lines, typedLines text = lines.map .line ∧
      (text = joined lines ∨ text = joined lines ++ "\n") := by
  obtain ⟨front, last, hlines⟩ :=
    (List.eq_nil_or_concat' (Text.splitLines text.toList)).resolve_left (splitLines_ne_nil _)
  have htext : text = joined ((front ++ [last]).map String.ofList) := by
    rw [← String.toList_inj, String.toList_intercalate, ← hlines]
    simpa [Function.comp_def] using (intercalate_splitLines text.toList).symm
  have hchop : (front.map String.ofList).map (fun l => Text.chopLineEnding (l ++ "\n")) =
      front.map String.ofList := by
    rw [List.map_map]
    refine List.map_congr_left fun l hl => chopLineEnding_line fun hc => h ?_
    exact mem_of_mem_splitLines (hlines ▸ List.mem_append_left _ hl) hc
  refine ⟨front.map String.ofList ++ (if String.ofList last = "" then [] else [String.ofList last]),
    ?_, ?_⟩
  · unfold typedLines
    simp only [hlines, List.map_append, List.map_singleton, List.dropLast_concat,
      List.getLastD_concat, hchop]
  · rw [List.map_append, List.map_singleton] at htext
    by_cases hlast : String.ofList last = ""
    · rw [if_pos hlast, List.append_nil]
      cases hfront : front.map String.ofList with
      | nil =>
        rw [hfront, hlast] at htext
        exact .inl htext
      | cons l ls =>
        rw [hfront, joined_append (by simp) (by simp), joined_singleton, hlast,
          String.append_empty] at htext
        exact .inr htext
    · rw [if_neg hlast]
      exact .inl htext

/-- The lines end too early, and so do all lines before them. -/
def AllUnfinished (lines : List String) : Prop :=
  ∀ front, front <+: lines → front ≠ [] → isUnfinished (joined front) = true

theorem isUnfinished_of_error {code : String} {e : ParseError}
    (h : Source.parse? ⟨"[tty]", code⟩ = .error e) : isUnfinished code = e.isPartial := by
  unfold isUnfinished
  rw [h]

theorem isUnfinished_of_ok {code : String} {es : List Expr}
    (h : Source.parse? ⟨"[tty]", code⟩ = .ok es) : isUnfinished code = false := by
  unfold isUnfinished
  rw [h]

theorem isUnfinished_empty : isUnfinished "" = false := by
  decide +kernel

theorem addLine_joined {group : List String} (h : AllUnfinished group) (l : String) :
    addLine (joined group) l = joined (group ++ [l]) := by
  by_cases hgroup : group = []
  · subst hgroup
    rw [List.nil_append, joined_singleton]
    exact if_pos rfl
  · have hne : joined group ≠ "" := by
      intro hempty
      have hlong := h group List.prefix_rfl hgroup
      rw [hempty, isUnfinished_empty] at hlong
      cases hlong
    rw [joined_append hgroup (by simp), joined_singleton]
    exact if_neg hne

def codes (events : List ReadEvent) : List String :=
  events.filterMap fun
    | .code c => some c
    | _ => none

theorem pieces_eq (lines : List String) : pieces lines = codes (transcript "" (lines.map .line)) := rfl

/-- `groups` are the pieces that the lines are read as, with the trees of each. -/
structure Grouped (lines : List String) (events : List ReadEvent) (es : List Expr)
    (groups : List (List String)) (trees : List (List Expr)) : Prop where
  lines : groups.flatten = lines
  pieces : codes events = groups.map joined
  parsed : List.Forall₂ (fun group ts => ∀ name, Source.parse? ⟨name, joined group⟩ = .ok ts)
    groups trees
  trees : trees.flatten = es
  complete : ∀ group ∈ groups, group ≠ [] ∧ ∀ front, front <+: group → front ≠ [] → front ≠ group →
    isUnfinished (joined front) = true

theorem AllUnfinished.nil : AllUnfinished [] :=
  fun _ hfront hne => absurd (List.prefix_nil.mp hfront) hne

theorem AllUnfinished.append {group : List String} (h : AllUnfinished group) {l : String}
    (hl : isUnfinished (joined (group ++ [l])) = true) : AllUnfinished (group ++ [l]) := by
  intro front hfront hne
  rcases List.prefix_concat_iff.mp hfront with rfl | hfront
  · exact hl
  · exact h front hfront hne

theorem Grouped.cons {group lines : List String} {events : List ReadEvent} {es ts : List Expr}
    {groups : List (List String)} {trees : List (List Expr)}
    (h : Grouped lines events es groups trees) {l : String} (hgroup : AllUnfinished group)
    (hparse : Source.parse? ⟨"[tty]", joined (group ++ [l])⟩ = .ok ts) (prompt : String) :
    Grouped (group ++ l :: lines) (.prompt prompt :: .code (joined (group ++ [l])) :: events)
      (ts ++ es) ((group ++ [l]) :: groups) (ts :: trees) := by
  refine ⟨?_, ?_, ?_, ?_, ?_⟩
  · rw [List.flatten_cons, h.lines]
    simp
  · exact congrArg _ h.pieces
  · exact .cons (Source.parse?_name hparse) h.parsed
  · rw [List.flatten_cons, h.trees]
  · rintro g hg
    rcases List.mem_cons.mp hg with rfl | hg
    · refine ⟨by simp, fun front hfront hne hproper => ?_⟩
      rcases List.prefix_concat_iff.mp hfront with rfl | hfront
      · exact absurd rfl hproper
      · exact hgroup front hfront hne
    · exact h.complete g hg

theorem parse?_empty : Source.parse? ⟨"[tty]", ""⟩ = .ok [] := by
  cbv

theorem parse_front {front ls : List String} (hfront : front ≠ [])
    (hfinished : ¬ isUnfinished (joined front) = true) {es : List Expr}
    (h : Source.parse? ⟨"[tty]", joined (front ++ ls)⟩ = .ok es) :
    ∃ ts es', Source.parse? ⟨"[tty]", joined front⟩ = .ok ts ∧
      Source.parse? ⟨"[tty]", joined ls⟩ = .ok es' ∧ es = ts ++ es' := by
  cases ls with
  | nil =>
    rw [List.append_nil] at h
    exact ⟨es, [], h, parse?_empty, (List.append_nil es).symm⟩
  | cons l ls =>
    rw [joined_append hfront (by simp)] at h
    cases hparse : Source.parse? ⟨"[tty]", joined front⟩ with
    | ok ts =>
      obtain ⟨es', hrest, hes⟩ := (Source.parse?_append_newline hparse _).mp h
      exact ⟨ts, es', rfl, hrest, hes⟩
    | error e =>
      rw [isUnfinished_of_error hparse] at hfinished
      rw [Source.parse?_append_error hparse (Bool.eq_false_iff.mpr hfinished)] at h
      cases h

theorem exists_grouped {group : List String} (hgroup : AllUnfinished group) (ls : List String)
    {es : List Expr} (h : Source.parse? ⟨"[tty]", joined (group ++ ls)⟩ = .ok es) :
    ∃ groups trees, Grouped (group ++ ls) (transcript (joined group) (ls.map .line)) es groups trees := by
  induction ls generalizing group es with
  | nil =>
    -- What is collected is unfinished, so there is nothing.
    rw [List.append_nil] at h ⊢
    obtain rfl : group = [] := by
      by_contra hne
      have hlong := hgroup group List.prefix_rfl hne
      rw [isUnfinished_of_ok h] at hlong
      cases hlong
    obtain rfl : es = [] := (Except.ok.inj (parse?_empty.symm.trans h)).symm
    exact ⟨[], [], rfl, rfl, .nil, rfl, nofun⟩
  | cons l ls ih =>
    have hcode := addLine_joined hgroup l
    by_cases hunfinished : isUnfinished (joined (group ++ [l])) = true
    · have hlong : Source.parse? ⟨"[tty]", joined ((group ++ [l]) ++ ls)⟩ = .ok es := by
        rwa [List.append_assoc]
      obtain ⟨groups, trees, hlines⟩ := ih (hgroup.append hunfinished) hlong
      have hevents : transcript (joined group) (.line l :: ls.map .line) =
          .prompt (promptAfter (joined group)) ::
            transcript (joined (group ++ [l])) (ls.map .line) := by
        simp [transcript, take, hcode, hunfinished]
      refine ⟨groups, trees, ?_⟩
      rw [List.append_assoc] at hlines
      rw [List.map_cons, hevents]
      exact ⟨hlines.lines, hlines.pieces, hlines.parsed, hlines.trees, hlines.complete⟩
    · have hevents : transcript (joined group) (.line l :: ls.map .line) =
          .prompt (promptAfter (joined group)) :: .code (joined (group ++ [l])) ::
            transcript "" (ls.map .line) := by
        simp [transcript, take, hcode, hunfinished]
      rw [List.map_cons, hevents]
      rw [List.append_cons] at h
      obtain ⟨ts, es', hparse, hrest, rfl⟩ := parse_front (by simp) hunfinished h
      obtain ⟨groups, trees, hlines⟩ := ih .nil hrest
      exact ⟨_, _, hlines.cons hgroup hparse _⟩

/-- The lines of a text that parses are read in pieces: every line is in one, in order, every piece
parses, none of its fronts was finished, and the trees of the pieces are those of the text. -/
theorem pieces_of_parsed {name text : String} {es : List Expr}
    (hparse : Source.parse? ⟨name, text⟩ = .ok es) (hreturn : '\r' ∉ text.toList) :
    ∃ (groups : List (List String)) (trees : List (List Expr)),
      typedLines text = groups.flatten.map .line ∧
      pieces groups.flatten = groups.map "\n".intercalate ∧
      List.Forall₂ (fun group ts => ∀ name, Source.parse? ⟨name, "\n".intercalate group⟩ = .ok ts)
        groups trees ∧
      trees.flatten = es ∧
      ∀ group ∈ groups, group ≠ [] ∧ ∀ front, front <+: group → front ≠ [] → front ≠ group →
        isUnfinished ("\n".intercalate front) = true := by
  obtain ⟨lines, htyped, htext⟩ := typedLines_eq hreturn
  have hlines : Source.parse? ⟨"[tty]", joined ([] ++ lines)⟩ = .ok es := by
    have htty := Source.parse?_name hparse "[tty]"
    rcases htext with rfl | rfl
    · exact htty
    · exact Source.parse?_of_append_newline htty
  obtain ⟨groups, trees, hgrouped⟩ := exists_grouped .nil lines hlines
  have hflat : groups.flatten = lines := hgrouped.lines
  refine ⟨groups, trees, ?_, ?_, hgrouped.parsed, hgrouped.trees, hgrouped.complete⟩
  · rw [hflat]
    exact htyped
  · rw [pieces_eq, hflat]
    exact hgrouped.pieces

/-- A form over four lines with a bracket in a comment, a blank line and a line feed in a string, and
a symbol. -/
theorem pieces_of_parsed_lines :
    Source.parse? ⟨"code", "(f ; [\n\n\"a\nb\")\nx\n"⟩ =
        .ok [.form [.sym "f", .atom (.str "a\nb")], .sym "x"] ∧
      '\r' ∉ "(f ; [\n\n\"a\nb\")\nx\n".toList ∧
      ∃ groups : List (List String),
        typedLines "(f ; [\n\n\"a\nb\")\nx\n" = groups.flatten.map .line ∧
        pieces groups.flatten = groups.map "\n".intercalate := by
  have hparse : Source.parse? ⟨"code", "(f ; [\n\n\"a\nb\")\nx\n"⟩ =
      .ok [.form [.sym "f", .atom (.str "a\nb")], .sym "x"] := by
    cbv
  have hreturn : '\r' ∉ "(f ; [\n\n\"a\nb\")\nx\n".toList := by decide
  obtain ⟨groups, trees, htyped, hpieces, -⟩ := pieces_of_parsed hparse hreturn
  exact ⟨hparse, hreturn, groups, htyped, hpieces⟩

end EventTally.Shell
