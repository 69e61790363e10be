import EventTally.Source.Parser

/-! # Literals with spreads

A literal is read as a form that makes a collection of its children. A spread literal of the same kind
stands for its own elements (`Bracket.flat`). The children may be grouped in another way than the
elements of the literal, but they stand for the same elements (`Bracket.desugar_cases`).
-/

namespace EventTally

def Item.exprs (items : List Item) : List Expr := items.map Item.expr

def Item.plain (e : Expr) : Item := ⟨e, false⟩

def Item.spreading (e : Expr) : Item := ⟨e, true⟩

theorem Item.exprs_plain (es : List Expr) : exprs (es.map .plain) = es := List.map_map.trans (List.map_id es)

theorem Item.exprs_spreading (es : List Expr) : exprs (es.map .spreading) = es :=
  List.map_map.trans (List.map_id es)

theorem Expr.eq_tagged {name : String} {e : Expr} {es : List Expr} (h : e.untag? name = some es) :
    e = .tagged name es := by
  unfold untag? at h
  split at h
  · split at h
    · next hname =>
      cases h
      rw [hname, tagged]
    · cases h
  · cases h

namespace Bracket

variable (b : Bracket)

/-- The elements that an element stands for: itself, or those of a spread literal of the same kind. -/
def parts (i : Item) : List Item :=
  match i.spread, i.expr.untag? b.tag with
  | true, some es => es.map .plain
  | _, _ => [i]

/-- The elements with those of spread literals of the same kind. -/
def flat (items : List Item) : List Item := items.flatMap b.parts

variable {b}

theorem parts_some {e : Expr} {es : List Expr} (h : e.untag? b.tag = some es) :
    b.parts ⟨e, true⟩ = es.map .plain := by
  unfold parts
  rw [h]

theorem parts_none {e : Expr} (h : e.untag? b.tag = none) : b.parts ⟨e, true⟩ = [⟨e, true⟩] := by
  unfold parts
  rw [h]

theorem parts_cases (i : Item) :
    b.parts i = [i] ∨ ∃ es, i = .spreading (.tagged b.tag es) ∧ b.parts i = es.map .plain := by
  obtain ⟨e, _ | _⟩ := i
  · exact .inl rfl
  · cases h : e.untag? b.tag with
    | none => exact .inl (parts_none h)
    | some es => exact .inr ⟨es, congrArg Item.spreading (Expr.eq_tagged h), parts_some h⟩

theorem flat_cons (i : Item) (items : List Item) : b.flat (i :: items) = b.parts i ++ b.flat items :=
  List.flatMap_cons

theorem flat_append (items items' : List Item) :
    b.flat (items ++ items') = b.flat items ++ b.flat items' := List.flatMap_append

theorem flat_plain (es : List Expr) : b.flat (es.map .plain) = es.map .plain := by
  induction es with
  | nil => rfl
  | cons e es ih =>
    rw [List.map_cons, flat_cons, ih]
    rfl

theorem flat_chunk (run : List Expr) : b.flat ((b.chunk run).map .spreading) = run.map .plain := by
  unfold chunk
  cases run with
  | nil => rfl
  | cons e run =>
    rw [if_neg (by simp), List.map_singleton, flat_cons]
    change b.parts ⟨.tagged b.tag (e :: run), true⟩ ++ [] = _
    rw [parts_some (Expr.untag?_tagged _ _), List.append_nil]

theorem flat_children (run : List Expr) (items : List Item) :
    b.flat ((b.children run items).1.map .spreading) = run.map .plain ++ b.flat items := by
  induction run, items using children.induct b with
  | case1 run =>
    rw [children, flat_chunk]
    exact (List.append_nil _).symm
  | case2 run e items ih =>
    rw [children, ih, List.map_append, List.append_assoc]
    rfl
  | case3 run e items es hes ih =>
    rw [children, hes]
    dsimp only
    rw [ih, List.map_append, List.append_assoc, flat_cons, parts_some hes]
  | case4 run e items hes ih =>
    rw [children, hes]
    dsimp only
    rw [List.map_append, List.map_cons, flat_append, flat_chunk, flat_cons, ih, flat_cons]
    change _ ++ (b.parts ⟨e, true⟩ ++ _) = _
    rw [parts_none hes]
    rfl

theorem flat_merged (run : List Expr) (items : List Item) (h : (b.children run items).2 = false) :
    b.flat items = (b.merged items).map .plain := by
  induction run, items using children.induct b with
  | case1 run => rfl
  | case2 run e items ih =>
    rw [children] at h
    rw [flat_cons, ih h, merged]
    rfl
  | case3 run e items es hes ih =>
    rw [children, hes] at h
    rw [flat_cons, ih h, merged, parts_some hes, hes, Option.getD_some, List.map_append]
  | case4 run e items hes ih =>
    rw [children, hes] at h
    cases h

/-- The tree of a literal makes a collection of plain or of spread elements, which stand for the same as
the elements of the literal. -/
theorem desugar_cases (items : List Item) : ∃ es,
    (b.desugar items = .tagged b.tag es ∧ b.flat items = b.flat (es.map .plain)) ∨
      b.desugar items = .tagged b.intoTag es ∧ b.flat items = b.flat (es.map .spreading) := by
  unfold desugar
  rcases hchildren : b.children [] items with ⟨children, _ | _⟩
  · refine ⟨b.merged items, .inl ⟨rfl, ?_⟩⟩
    rw [flat_merged [] items (congrArg Prod.snd hchildren), flat_plain]
  · refine ⟨children, .inr ⟨rfl, ?_⟩⟩
    have hflat := flat_children (b := b) [] items
    rw [hchildren] at hflat
    exact hflat.symm

end Bracket

end EventTally
