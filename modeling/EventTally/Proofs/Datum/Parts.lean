import EventTally.Datum.Basic

/-! # Parts of data

What holds of a datum whenever it holds of its parts holds of all data.
-/

namespace EventTally.Datum

theorem sizeOf_entry_lt {es : List (Datum × Datum)} {e : Datum × Datum} (h : e ∈ es) :
    sizeOf e.1 < sizeOf es ∧ sizeOf e.2 < sizeOf es := by
  have hlt := List.sizeOf_lt_of_mem h
  obtain ⟨k, v⟩ := e
  rw [Prod.mk.sizeOf_spec] at hlt
  exact ⟨show sizeOf k < sizeOf es by omega, show sizeOf v < sizeOf es by omega⟩

@[elab_as_elim]
theorem parts_induction {motive : Datum → Prop} (atom : ∀ a, motive (.atom a))
    (list : ∀ ds, (∀ d ∈ ds, motive d) → motive (.list ds))
    (tuple : ∀ ds, (∀ d ∈ ds, motive d) → motive (.tuple ds))
    (dict : ∀ es : List (Datum × Datum), (∀ e ∈ es, motive e.1) → (∀ e ∈ es, motive e.2) →
      motive (.dict es))
    (set : ∀ ds, (∀ d ∈ ds, motive d) → motive (.set ds)) (builtin : ∀ name, motive (.builtin name))
    (closure : ∀ id name pattern body, motive pattern → motive body →
      motive (.closure id name pattern body)) (d : Datum) : motive d :=
  match d with
  | .atom a => atom a
  | .list ds => list ds fun d _ => parts_induction atom list tuple dict set builtin closure d
  | .tuple ds => tuple ds fun d _ => parts_induction atom list tuple dict set builtin closure d
  | .dict es =>
    dict es
      (fun e hmem =>
        have := (sizeOf_entry_lt hmem).1
        parts_induction atom list tuple dict set builtin closure e.1)
      (fun e hmem =>
        have := (sizeOf_entry_lt hmem).2
        parts_induction atom list tuple dict set builtin closure e.2)
  | .set ds => set ds fun d _ => parts_induction atom list tuple dict set builtin closure d
  | .builtin name => builtin name
  | .closure id name pattern body =>
    closure id name pattern body (parts_induction atom list tuple dict set builtin closure pattern)
      (parts_induction atom list tuple dict set builtin closure body)

end EventTally.Datum
