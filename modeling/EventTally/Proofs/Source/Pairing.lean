import EventTally.Proofs.Source.Spread
import Mathlib.Algebra.Group.Nat.Even

/-! # Runs of keys and values

The plain elements of a dict literal are keys and values in turn. They pair up if every run of plain
elements between spread ones has an even length (`Item.Paired`). The children of the tree of a literal are
these runs and the spread expressions between them (`Bracket.Lays`).

A spread literal of the same kind is part of the run around it. The elements as they are written may fail
to pair up where those of the tree do; not the other way round (`Bracket.paired_flat`).
-/

namespace EventTally

namespace Item

def runs (items : List Item) : List (List Item) := items.splitOnP Item.spread

def Paired (items : List Item) : Prop := ∀ run ∈ runs items, Even run.length

instance : DecidablePred Paired := fun items =>
  inferInstanceAs (Decidable (∀ run ∈ runs items, Even run.length))

variable {items : List Item}

theorem not_spread_of_mem {run : List Expr} : ∀ i ∈ run.map plain, i.spread = false := by
  intro i hi
  obtain ⟨e, -, rfl⟩ := List.mem_map.mp hi
  rfl

theorem paired_plain (run : List Expr) : Paired (run.map plain) ↔ Even run.length := by
  unfold Paired runs
  rw [List.splitOnP_eq_singleton not_spread_of_mem, List.forall_mem_singleton, List.length_map]

theorem paired_spreading (run : List Expr) (e : Expr) (items : List Item) :
    Paired (run.map plain ++ spreading e :: items) ↔ Even run.length ∧ Paired items := by
  unfold Paired runs
  rw [List.splitOnP_append_cons_of_forall_mem not_spread_of_mem (spreading e) rfl,
    List.forall_mem_cons, List.length_map]

theorem paired_cons_cons (k v : Expr) (items : List Item) :
    Paired (plain k :: plain v :: items) ↔ Paired items := by
  have hcons (e : Expr) (items : List Item) :
      runs (plain e :: items) = (runs items).modifyHead (plain e :: ·) := by
    unfold runs
    rw [List.splitOnP_cons_eq_if_modifyHead, if_neg (by simp [plain])]
  unfold Paired
  rw [hcons, hcons]
  cases runs items with
  | nil => rfl
  | cons run runs => simp [Nat.even_add_one]

end Item

namespace Bracket

variable {b : Bracket} {items : List Item} {cs : List Expr}

/-- The children of a literal: its runs of plain elements as chunks, none for a run that is empty, and its
spread expressions between them. -/
inductive Lays (b : Bracket) : List Item → List Expr → Prop
  | last (run : List Expr) : Lays b (run.map .plain) (b.chunk run)
  | spread (run : List Expr) (e : Expr) {items : List Item} {cs : List Expr} (h : Lays b items cs) :
      Lays b (run.map .plain ++ .spreading e :: items) (b.chunk run ++ e :: cs)

theorem lays_children (run : List Expr) (items : List Item) :
    Lays b (run.map .plain ++ b.flat items) (b.children run items).1 := by
  induction run, items using children.induct b with
  | case1 run =>
    rw [children]
    exact (List.append_nil _).symm ▸ .last run
  | case2 run e items ih =>
    rw [List.map_append, List.append_assoc] at ih
    exact ih
  | case3 run e items es hes ih =>
    rw [children, hes]
    dsimp only
    rw [flat_cons, parts_some hes]
    rwa [List.map_append, List.append_assoc] at ih
  | case4 run e items hes ih =>
    rw [children, hes]
    dsimp only
    rw [flat_cons, parts_none hes]
    exact .spread run e ih

theorem desugar_lays (items : List Item) :
    (∃ es, b.desugar items = .tagged b.tag es ∧ b.flat items = es.map .plain) ∨
      ∃ cs, b.desugar items = .tagged b.intoTag cs ∧ Lays b (b.flat items) cs := by
  unfold desugar
  rcases hchildren : b.children [] items with ⟨children, _ | _⟩
  · exact .inl ⟨_, rfl, flat_merged [] items (congrArg Prod.snd hchildren)⟩
  · have hlays := lays_children (b := b) [] items
    rw [hchildren] at hlays
    exact .inr ⟨children, rfl, hlays⟩

/-- If the elements pair up as they are written, those of spread literals of the same kind too, then they
do when these literals are merged. The run before may have become longer by a literal. -/
theorem paired_flat (run run' : List Expr) (hparity : Even run.length ↔ Even run'.length)
    (hpaired : Item.Paired (run'.map .plain ++ items))
    (hspread : ∀ es, .spreading (.tagged b.tag es) ∈ items → Even es.length) :
    Item.Paired (run.map .plain ++ b.flat items) := by
  induction items generalizing run run' with
  | nil =>
    rw [List.append_nil, Item.paired_plain] at hpaired
    change Item.Paired (run.map .plain ++ [])
    rw [List.append_nil, Item.paired_plain]
    exact hparity.mpr hpaired
  | cons i items ih =>
    have hrest : ∀ es, .spreading (.tagged b.tag es) ∈ items → Even es.length :=
      fun es hes => hspread es (List.mem_cons_of_mem _ hes)
    rw [flat_cons]
    obtain ⟨e, _ | _⟩ := i
    · change Item.Paired (run.map .plain ++ ([.plain e] ++ b.flat items))
      rw [← List.append_assoc, ← List.map_singleton, ← List.map_append]
      refine ih (run ++ [e]) (run' ++ [e]) ?_ ?_ hrest
      · simp only [List.length_append, List.length_singleton, Nat.even_add_one, hparity]
      · rw [List.map_append, List.append_assoc]
        exact hpaired
    · obtain ⟨hrun, hpaired⟩ := (Item.paired_spreading run' e items).mp hpaired
      obtain hparts | ⟨es, heq, hparts⟩ := b.parts_cases ⟨e, true⟩
      · rw [hparts]
        refine (Item.paired_spreading run e _).mpr ⟨hparity.mpr hrun, ?_⟩
        exact ih [] [] .rfl hpaired hrest
      · have hes : Even es.length := hspread es (by rw [← heq]; exact List.mem_cons_self)
        rw [hparts, ← List.append_assoc, ← List.map_append]
        refine ih (run ++ es) [] ?_ hpaired hrest
        rw [List.length_append]
        exact iff_of_true ((hparity.mpr hrun).add hes) Even.zero

/-- `#{1 &#{2 3} 4}` -/
example : let items := [.plain (.atom (.int 1)), .spreading (.tagged "dict" [.atom (.int 2), .atom (.int 3)]),
      .plain (.atom (.int 4))]
    Item.Paired (Bracket.dict.flat items) ∧ ¬ Item.Paired items := by decide

end Bracket

end EventTally
