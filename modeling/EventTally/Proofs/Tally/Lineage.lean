import EventTally.Tally.Template
import Mathlib.Data.List.Forall2
import Mathlib.Data.List.Nodup
import Mathlib.Data.List.Perm.Subperm
import Mathlib.Logic.Relation

/-! # Chains of templates

A list of templates is accepted if each template is complete and no template is its own ancestor. The
check for cycles counts steps and does not note which templates it has seen: a walk through the parents
that takes as many steps as there are templates and is not at its end has met one of them twice.
-/

namespace EventTally.Template

variable {ts : List Template} {t p u : Template} {bs done new : List Blueprint} {a b : Blueprint}
  {chain chain' : List Blueprint} {name : String} {fuel index : Nat}

/-- The template, its parent, the parent of that and so on up to one without a parent. -/
inductive Lineage (bs : List Blueprint) : Blueprint → List Blueprint → Prop
  | root {b : Blueprint} (hmem : b ∈ bs) (hroot : b.template.parent = "") : Lineage bs b [b]
  | child {b p : Blueprint} {chain : List Blueprint} (hmem : b ∈ bs) (hhas : b.template.parent ≠ "")
      (hnamed : p.template.name = b.template.parent) (hrest : Lineage bs p chain) :
      Lineage bs b (b :: chain)

theorem find?_isSome : (find? bs name).isSome ↔ name ∈ bs.map (·.template.name) := by
  simp [find?]

theorem mem_of_find? (h : find? bs name = some b) : b ∈ bs ∧ b.template.name = name := by
  have hname := List.find?_some h
  exact ⟨List.mem_of_find?_eq_some h, eq_of_beq hname⟩

theorem eq_of_name (hdistinct : (bs.map (·.template.name)).Nodup) (ha : a ∈ bs) (hb : b ∈ bs)
    (hname : a.template.name = b.template.name) : a = b :=
  List.inj_on_of_nodup_map hdistinct ha hb hname

theorem find?_eq_some (hdistinct : (bs.map (·.template.name)).Nodup) :
    find? bs name = some b ↔ b ∈ bs ∧ b.template.name = name := by
  refine ⟨mem_of_find?, ?_⟩
  rintro ⟨hb, rfl⟩
  obtain ⟨a, ha⟩ := Option.isSome_iff_exists.mp (find?_isSome.mpr (List.mem_map_of_mem hb))
  obtain ⟨hmem, hname⟩ := mem_of_find? ha
  rw [ha, eq_of_name hdistinct hmem hb hname]

section

variable (hdistinct : (bs.map (·.template.name)).Nodup)

theorem Lineage.mem (h : Lineage bs b chain) : b ∈ bs := by
  cases h with
  | root hmem | child hmem => exact hmem

include hdistinct

theorem Lineage.lineage?_eq (h : Lineage bs b chain) (hfuel : chain.length ≤ fuel) :
    lineage? bs fuel b = some chain := by
  induction h generalizing fuel with
  | root hmem hroot =>
    obtain ⟨fuel, rfl⟩ := Nat.exists_eq_add_of_le' hfuel
    exact if_pos hroot
  | @child b p rest hmem hhas hnamed hrest ih =>
    obtain ⟨fuel, rfl⟩ := Nat.exists_eq_add_of_le' hfuel
    have hp := (find?_eq_some hdistinct).mpr ⟨hrest.mem, hnamed⟩
    have hup : lineage? bs (fuel + rest.length) p = some rest := ih (Nat.le_add_left ..)
    rw [List.length_cons, ← Nat.add_assoc, lineage?, if_neg hhas, hp]
    dsimp only
    rw [hup]
    rfl

theorem Lineage.unique (h : Lineage bs b chain) (h' : Lineage bs b chain') : chain = chain' := by
  have heq := h.lineage?_eq hdistinct (Nat.le_max_left chain.length chain'.length)
  rw [h'.lineage?_eq hdistinct (Nat.le_max_right ..)] at heq
  exact (Option.some.inj heq).symm

end

end EventTally.Template
