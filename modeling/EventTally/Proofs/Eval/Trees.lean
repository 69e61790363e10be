import EventTally.Proofs.Datum.Literal
import EventTally.Proofs.Eval.Contract
import EventTally.Proofs.Heap.Ending
import EventTally.Proofs.Heap.Extends
import EventTally.Proofs.Keyed
import EventTally.Proofs.Source.RoundTrip

/-! # Source trees in the heap

A source tree can be loaded into the heap: its forms become lists. It can be run there like any
other list, and as long as nothing refers to its lists but the tree itself, no change in place
reaches them.
-/

namespace EventTally

namespace Heap

/-- The value is the tree: each form is a list of its own elements. -/
inductive Tree (h : Heap) : Value → Expr → Prop
  | atom (a : Atom) : Tree h (.atom a) (.atom a)
  | form {r : ListRef} {vs : List Value} {es : List Expr}
      (hcell : h.lists[r.id]? = some { slots := vs.toArray, size := vs.length })
      (helems : List.Forall₂ (Tree h) vs es) : Tree h (.list r) (.form es)

/-- The code is the expression, as it was parsed or loaded as a tree. -/
inductive Holds (h : Heap) : Code → Expr → Prop
  | parsed (e : Expr) : Holds h (.ofExpr e) e
  | loaded {v : Value} {e : Expr} (ht : h.Tree v e) : Holds h (.value v) e

/-- The trees of several expressions in a new part of the heap. -/
def load (h : Heap) (es : List Expr) : List Value × Heap := h.thawAll (Datum.ofExprs es)

variable {h h' : Heap} {v : Value} {e : Expr}

theorem Tree.atom_or_list {v : Value} {e : Expr} (ht : h.Tree v e) :
    (∃ a, v = .atom a) ∨ ∃ r, v = .list r := by
  cases ht with
  | atom a => exact .inl ⟨a, rfl⟩
  | form => exact .inr ⟨_, rfl⟩

theorem Holds.eq_atom {c : Code} {a : Atom} (hc : h.Holds c (.atom a)) :
    c = .value (.atom a) := by
  generalize he : Expr.atom a = e at hc
  cases hc with
  | parsed =>
    subst he
    rw [Code.ofExpr]
  | loaded ht =>
    subst he
    cases ht
    rfl

theorem Holds.form_or_list {c : Code} {es : List Expr} (hc : h.Holds c (.form es)) :
    (∃ cs, c = .form cs) ∨ ∃ r, c = .value (.list r) := by
  generalize he : Expr.form es = e at hc
  cases hc with
  | parsed =>
    subst he
    exact .inl ⟨_, Code.ofExpr.eq_2 es⟩
  | loaded ht =>
    subst he
    cases ht
    exact .inr ⟨_, rfl⟩

mutual

theorem Tree.of_extends (hext : h.Extends h') {v : Value} {e : Expr} (ht : h.Tree v e) :
    h'.Tree v e := by
  match e, ht with
  | .atom a, .atom _ => exact .atom a
  | .form es, .form hcell helems =>
    exact .form (hext.lists _ _ hcell) (trees_of_extends hext helems)

theorem trees_of_extends (hext : h.Extends h') {vs : List Value} {es : List Expr}
    (hts : List.Forall₂ h.Tree vs es) : List.Forall₂ h'.Tree vs es := by
  match es, hts with
  | [], .nil => exact .nil
  | _ :: _, .cons ht hts => exact .cons (ht.of_extends hext) (trees_of_extends hext hts)

end

mutual

theorem tree_thaw (h : Heap) (e : Expr) :
    h.Extends (h.thaw (.ofExpr e)).2 ∧
      (h.thaw (.ofExpr e)).2.Tree (h.thaw (.ofExpr e)).1 e := by
  match e with
  | .atom a =>
    rw [Datum.ofExpr]
    exact ⟨.refl h, .atom a⟩
  | .form es =>
    rw [Datum.ofExpr]
    obtain ⟨hext, hts⟩ := h.trees_load es
    have hnew := Extends.newList (h.load es).2 (h.load es).1
    refine ⟨hext.trans hnew, .form ?_ (trees_of_extends hnew hts)⟩
    exact Array.getElem?_push_size

theorem trees_load (h : Heap) (es : List Expr) :
    h.Extends (h.load es).2 ∧ List.Forall₂ (h.load es).2.Tree (h.load es).1 es := by
  match es with
  | [] =>
    rw [load, Datum.ofExprs]
    exact ⟨.refl h, .nil⟩
  | e :: es =>
    rw [load, Datum.ofExprs]
    obtain ⟨hext, ht⟩ := h.tree_thaw e
    obtain ⟨hext', hts⟩ := (h.thaw (.ofExpr e)).2.trees_load es
    exact ⟨hext.trans hext', .cons (ht.of_extends hext') hts⟩

end

theorem elems_of_cell {r : ListRef} {vs : List Value}
    (hcell : h.lists[r.id]? = some { slots := vs.toArray, size := vs.length }) : h.elems r = vs := by
  simp [elems, list, hcell]

mutual

theorem Tree.view {v : Value} {e : Expr} (ht : h.Tree v e) {n : Nat}
    (hn : (Datum.ofExpr e).nesting ≤ n) : v.view (h.lens n) = .ofExpr e := by
  match e, ht with
  | .atom a, .atom _ =>
    rw [Datum.ofExpr]
    rfl
  | .form es, .form hcell helems =>
    rw [Datum.ofExpr, Datum.nesting] at hn
    obtain ⟨n, rfl⟩ : ∃ k, n = k + 1 := ⟨n - 1, by omega⟩
    rw [Value.view, lens]
    dsimp only
    rw [elems_of_cell hcell, trees_view helems (by omega), Datum.ofExpr]

theorem trees_view {vs : List Value} {es : List Expr} (hts : List.Forall₂ h.Tree vs es) {n : Nat}
    (hn : Datum.nestingAll (Datum.ofExprs es) ≤ n) :
    vs.map (Value.view (h.lens n)) = Datum.ofExprs es := by
  match es, hts with
  | [], .nil =>
    rw [Datum.ofExprs]
    rfl
  | e :: es, .cons ht hts =>
    rw [Datum.ofExprs, Datum.nestingAll] at hn
    rw [List.map_cons, ht.view (by omega), trees_view hts (by omega), Datum.ofExprs]

end

theorem Tree.seenAs (ht : h.Tree v e) : h.SeenAs (Datum.ofExpr e).nesting v (.ofExpr e) :=
  fun _ hn => ht.view hn

theorem Tree.datum (ht : h.Tree v e) : h.datum v = .ofExpr e := ht.seenAs.datum

theorem Tree.datum? (ht : h.Tree v e) : h.datum? v = some (.ofExpr e) := by
  rw [Heap.datum?, ht.seenAs.isFinite, if_pos rfl, ht.datum]

theorem map_datum_trees {vs : List Value} {es : List Expr} (hts : List.Forall₂ h.Tree vs es) :
    vs.map h.datum = Datum.ofExprs es := by
  induction hts with
  | nil =>
    rw [Datum.ofExprs]
    rfl
  | cons ht _ ih => rw [List.map_cons, ht.datum, ih, Datum.ofExprs]

theorem exists_of_mem_trees {vs : List Value} {es : List Expr} (hts : List.Forall₂ h.Tree vs es)
    {v : Value} (hv : v ∈ vs) : ∃ e, h.Tree v e := by
  induction hts with
  | nil => cases hv
  | cons ht _ ih =>
    rcases List.mem_cons.mp hv with rfl | hv
    · exact ⟨_, ht⟩
    · exact ih hv

mutual

theorem lists_thaw (h : Heap) (e : Expr) : ∃ lists, (h.thaw (.ofExpr e)).2 = { h with lists } := by
  match e with
  | .atom a =>
    rw [Datum.ofExpr]
    exact ⟨h.lists, rfl⟩
  | .form es =>
    obtain ⟨lists, hload⟩ := h.lists_load es
    rw [Datum.ofExpr]
    change ∃ lists, ((h.load es).2.newList (h.load es).1).2 = { h with lists }
    rw [hload]
    exact ⟨_, rfl⟩

theorem lists_load (h : Heap) (es : List Expr) : ∃ lists, (h.load es).2 = { h with lists } := by
  match es with
  | [] =>
    rw [load, Datum.ofExprs]
    exact ⟨h.lists, rfl⟩
  | e :: es =>
    obtain ⟨lists, hthaw⟩ := h.lists_thaw e
    obtain ⟨lists', hload⟩ := (h.thaw (.ofExpr e)).2.lists_load es
    rw [load, Datum.ofExprs]
    refine ⟨lists', ?_⟩
    change ((h.thaw (.ofExpr e)).2.load es).2 = _
    rw [hload, hthaw]

end

/-- The lists of the heap from a number on are trees of atoms and such lists. -/
structure Planted (first : Nat) (h : Heap) : Prop where
  trees : ∀ i, first ≤ i → i < h.lists.size → ∃ es, h.Tree (.list ⟨i⟩) (.form es)
  own : ∀ i, first ≤ i → ∀ cell, h.lists[i]? = some cell → ∀ r, .list r ∈ cell.slots → first ≤ r.id

theorem planted_size (h : Heap) : h.Planted h.lists.size := by
  constructor
  · intro i hle hlt
    omega
  · intro i hle cell hcell
    rw [Array.getElem?_eq_none hle] at hcell
    cases hcell

theorem Planted.newList {n : Nat} (hp : h.Planted n) {vs : List Value} {es : List Expr}
    (hts : List.Forall₂ h.Tree vs es) (hown : ∀ r, .list r ∈ vs → n ≤ r.id) :
    (h.newList vs).2.Planted n := by
  have hext := Extends.newList h vs
  have hnew : (h.newList vs).2.lists = h.lists.push { slots := vs.toArray, size := vs.length } := rfl
  constructor
  · intro i hle hlt
    rw [hnew, Array.size_push] at hlt
    by_cases hi : i < h.lists.size
    · obtain ⟨es, ht⟩ := hp.trees i hle hi
      exact ⟨es, ht.of_extends hext⟩
    · obtain rfl : i = h.lists.size := by omega
      refine ⟨es, .form ?_ (trees_of_extends hext hts)⟩
      rw [hnew, Array.getElem?_push_size]
  · intro i hle cell hcell r hr
    rw [hnew, Array.getElem?_push] at hcell
    split at hcell
    · cases hcell
      exact hown r (List.mem_toArray.mp hr)
    · exact hp.own i hle cell hcell r hr

mutual

theorem Planted.thaw {h : Heap} {n : Nat} (hp : h.Planted n) (hn : n ≤ h.lists.size) (e : Expr) :
    (h.thaw (.ofExpr e)).2.Planted n ∧ ∀ r, (h.thaw (.ofExpr e)).1 = .list r → n ≤ r.id := by
  match e with
  | .atom a =>
    rw [Datum.ofExpr]
    refine ⟨hp, ?_⟩
    rintro r ⟨⟩
  | .form es =>
    obtain ⟨hp', hown⟩ := hp.load hn es
    obtain ⟨hext, hts⟩ := h.trees_load es
    rw [Datum.ofExpr]
    refine ⟨hp'.newList hts hown, ?_⟩
    rintro r ⟨⟩
    exact hn.trans hext.lists.size_le

theorem Planted.load {h : Heap} {n : Nat} (hp : h.Planted n) (hn : n ≤ h.lists.size) (es : List Expr) :
    (h.load es).2.Planted n ∧ ∀ r, .list r ∈ (h.load es).1 → n ≤ r.id := by
  match es with
  | [] =>
    rw [Heap.load, Datum.ofExprs]
    refine ⟨hp, ?_⟩
    rintro r ⟨⟩
  | e :: es =>
    obtain ⟨hp', hown⟩ := hp.thaw hn e
    have hext := (h.tree_thaw e).1
    obtain ⟨hp'', hown'⟩ := hp'.load (hn.trans hext.lists.size_le) es
    rw [Heap.load, Datum.ofExprs]
    refine ⟨hp'', fun r hr => ?_⟩
    rcases List.mem_cons.mp hr with hr | hr
    · exact hown r hr.symm
    · exact hown' r hr

end

def cells (h : Heap) (i : Nat) : Option ListCell := h.lists[i]?

def Free (kept : Nat → Option ListCell) (v : Value) : Prop := ∀ r, .list r ∈ v.refs → kept r.id = none

section

variable {kept : Nat → Option ListCell}

theorem free_list {r : ListRef} : Free kept (.list r) ↔ kept r.id = none := by
  simp [Free, Value.refs]

theorem free_tuple {vs : List Value} : Free kept (.tuple vs) ↔ ∀ v ∈ vs, Free kept v := by
  simp only [Free, Value.refs, Value.refsAll_eq, List.mem_flatMap]
  constructor
  · exact fun hfree v hv r hr => hfree r ⟨v, hv, hr⟩
  · rintro hfree r ⟨v, hv, hr⟩
    exact hfree v hv r hr

theorem free_of_refs_nil (hv : v.refs = []) : Free kept v := by
  intro r hr
  rw [hv] at hr
  cases hr

end

/-- The heap has the lists that are kept, and they occur only in each other and in code. -/
structure Guards (kept : Nat → Option ListCell) (h : Heap) : Prop where
  cell : ∀ i cell, kept i = some cell → h.lists[i]? = some cell
  slots : ∀ i cell, kept i = none → h.lists[i]? = some cell → ∀ v ∈ cell.slots, Free kept v
  entries : ∀ r, ∀ e ∈ h.entries r, Free kept e.1 ∧ Free kept e.2
  members : ∀ r, ∀ v ∈ h.members r, Free kept v
  bindings : ∀ s, ∀ b ∈ (h.layer s).bindings, Free kept b.2
  closure : ∀ r, (h.closure r).pattern.Runs (Free kept) ∧ (h.closure r).body.Runs (Free kept)

mutual

theorem Guards.tree (hg : Guards h.cells h') {v : Value} {e : Expr} (ht : h.Tree v e) : h'.Tree v e := by
  match e, ht with
  | .atom a, .atom _ => exact .atom a
  | .form es, .form hcell helems => exact .form (hg.cell _ _ hcell) (hg.trees helems)

theorem Guards.trees (hg : Guards h.cells h') {vs : List Value} {es : List Expr}
    (hts : List.Forall₂ h.Tree vs es) : List.Forall₂ h'.Tree vs es := by
  match es, hts with
  | [], .nil => exact .nil
  | _ :: _, .cons ht hts => exact .cons (hg.tree ht) (hg.trees hts)

end

theorem Guards.holds (hg : Guards h.cells h') {c : Code} (hc : h.Holds c e) : h'.Holds c e := by
  cases hc with
  | parsed e => exact .parsed e
  | loaded ht => exact .loaded (hg.tree ht)

theorem mem_bindings_of_lookup {s : ScopeRef} {name : String} (hv : h.lookup s name = some v) :
    ∃ t, ∃ b ∈ (h.layer t).bindings, b.2 = v := by
  fun_induction Heap.lookup h s name with
  | case1 s u hlocal =>
    cases hv
    obtain ⟨b, hfind, rfl⟩ := Option.map_eq_some_iff.mp hlocal
    exact ⟨s, b, List.mem_of_find?_eq_some hfind, rfl⟩
  | case2 => cases hv
  | case3 => cases hv
  | case4 _ _ _ _ _ _ ih => exact ih hv
  | case5 => cases hv

namespace Guards

variable {kept : Nat → Option ListCell} (hg : Guards kept h)
include hg

theorem slot {r : ListRef} (hr : kept r.id = none) (i : Nat) : Free kept (h.slot r i) := by
  unfold Heap.slot Heap.list
  cases hcell : h.lists[r.id]? with
  | none => exact free_of_refs_nil rfl
  | some cell =>
    dsimp only [Option.getD_some]
    cases hslot : cell.slots[i]? with
    | none => exact free_of_refs_nil rfl
    | some v => exact hg.slots r.id cell hr hcell v (Array.mem_of_getElem? hslot)

theorem slot_eq {r : ListRef} {cell : ListCell} (hr : kept r.id = some cell) (i : Nat) :
    h.slot r i = cell.slots[i]?.getD .null := by
  unfold Heap.slot Heap.list
  rw [hg.cell r.id cell hr, Option.getD_some]

theorem kept_size : kept h.lists.size = none := by
  cases hkept : kept h.lists.size with
  | none => rfl
  | some cell =>
    have hcell := hg.cell _ _ hkept
    rw [Array.getElem?_eq_none (Nat.le_refl _)] at hcell
    cases hcell

theorem newList {vs : List Value} (hvs : ∀ v ∈ vs, Free kept v) : Guards kept (h.newList vs).2 where
  cell := by
    intro i cell hi
    have hcell := hg.cell i cell hi
    have hlt := (Array.getElem?_eq_some_iff.mp hcell).1
    simp only [Heap.newList]
    rw [Array.getElem?_push, if_neg (by omega), hcell]
  slots := by
    intro i cell hi hcell
    simp only [Heap.newList, Array.getElem?_push] at hcell
    split at hcell
    · cases hcell
      simpa using hvs
    · exact hg.slots i cell hi hcell
  entries := hg.entries
  members := hg.members
  bindings := hg.bindings
  closure := hg.closure

theorem newDict {es : List (Value × Value)} (hes : ∀ e ∈ es, Free kept e.1 ∧ Free kept e.2) :
    Guards kept (h.newDict es).2 where
  cell := hg.cell
  slots := hg.slots
  entries := by
    intro r e he
    simp only [Heap.newDict, Heap.entries, Array.getElem?_push] at he
    split at he
    · exact hes e he
    · exact hg.entries r e he
  members := hg.members
  bindings := hg.bindings
  closure := hg.closure

theorem newSet {vs : List Value} (hvs : ∀ v ∈ vs, Free kept v) : Guards kept (h.newSet vs).2 where
  cell := hg.cell
  slots := hg.slots
  entries := hg.entries
  members := by
    intro r v hv
    simp only [Heap.newSet, Heap.members, Array.getElem?_push] at hv
    split at hv
    · exact hvs v hv
    · exact hg.members r v hv
  bindings := hg.bindings
  closure := hg.closure

theorem newClosure {c : Closure} (hpattern : c.pattern.Runs (Free kept)) (hbody : c.body.Runs (Free kept)) :
    Guards kept (h.newClosure c).2 where
  cell := hg.cell
  slots := hg.slots
  entries := hg.entries
  members := hg.members
  bindings := hg.bindings
  closure := by
    intro r
    simp only [Heap.newClosure, Heap.closure, Array.getElem?_push]
    split
    · exact ⟨hpattern, hbody⟩
    · exact hg.closure r

theorem child (b : ScopeRef) : Guards kept (h.child b).2 where
  cell := hg.cell
  slots := hg.slots
  entries := hg.entries
  members := hg.members
  bindings := by
    intro s b hb
    simp only [Heap.child, Heap.layer, Array.getElem?_push] at hb
    split at hb
    · cases hb
    · exact hg.bindings s b hb
  closure := hg.closure

theorem modifyLayer {s : ScopeRef} {f : Layer → Layer} {p : String × Value → Prop}
    (hp : ∀ b, p b → Free kept b.2) (hf : ∀ l, ∀ b ∈ (f l).bindings, b ∈ l.bindings ∨ p b) :
    Guards kept { h with layers := h.layers.modify s.id f } where
  cell := hg.cell
  slots := hg.slots
  entries := hg.entries
  members := hg.members
  bindings := by
    intro t b hb
    have hold := hg.bindings t
    unfold Heap.layer at hb hold
    rw [Array.getElem?_modify] at hb
    split at hb
    · cases hlayer : h.layers[t.id]? with
      | none =>
        rw [hlayer] at hb
        cases hb
      | some l =>
        rw [hlayer] at hb hold
        exact (hf l b hb).elim (hold b) (hp b)
    · exact hold b hb
  closure := hg.closure

theorem bind {s : ScopeRef} (name : String) (hv : Free kept v) : Guards kept (h.bind s name v) := by
  refine hg.modifyLayer (p := (· = (name, v))) ?_ ?_
  · rintro b rfl
    exact hv
  · intro l b hb
    exact (Codec.mem_insert hb).symm

theorem unbind (s : ScopeRef) (name : String) : Guards kept (h.unbind s name) := by
  refine hg.modifyLayer (p := fun _ => False) ?_ ?_
  · exact fun _ hfalse => hfalse.elim
  · exact fun l b hb => .inl (List.mem_of_mem_eraseP hb)

theorem modifyList {r : ListRef} (hr : kept r.id = none) {f : ListCell → ListCell}
    {p : Value → Prop} (hp : ∀ v, p v → Free kept v)
    (hf : ∀ cell, ∀ v ∈ (f cell).slots, v ∈ cell.slots ∨ p v) :
    Guards kept { h with lists := h.lists.modify r.id f } where
  cell := by
    intro i cell hi
    have hne : r.id ≠ i := by
      rintro rfl
      rw [hr] at hi
      cases hi
    rw [Array.getElem?_modify, if_neg hne, hg.cell i cell hi]
  slots := by
    intro i cell hi hcell v hv
    rw [Array.getElem?_modify] at hcell
    split at hcell
    · obtain ⟨old, hold, rfl⟩ := Option.map_eq_some_iff.mp hcell
      exact (hf old v hv).elim (hg.slots i old hi hold v) (hp v)
    · exact hg.slots i cell hi hcell v hv
  entries := hg.entries
  members := hg.members
  bindings := hg.bindings
  closure := hg.closure

theorem setSlot {r : ListRef} (hr : kept r.id = none) (i : Nat) (hv : Free kept v) :
    Guards kept (h.setSlot r i v) := by
  refine hg.modifyList hr (p := (· = v)) ?_ ?_
  · rintro u rfl
    exact hv
  · intro cell u hu
    exact Array.mem_or_eq_of_mem_setIfInBounds hu

theorem removeSlot {r : ListRef} (hr : kept r.id = none) (i : Nat) :
    Guards kept (h.removeSlot r i) := by
  refine hg.modifyList hr (p := fun _ => False) ?_ ?_
  · exact fun _ hfalse => hfalse.elim
  · intro cell u hu
    left
    simp only [List.mem_toArray, List.mem_append] at hu
    rw [← Array.mem_toList_iff]
    rcases hu with (hu | hu) | hu
    · exact List.mem_of_mem_take hu
    · exact List.mem_of_mem_take (List.mem_of_mem_drop hu)
    · exact List.mem_of_mem_drop hu

theorem setEntries (r : DictRef) {es : List (Value × Value)}
    (hes : ∀ e ∈ es, Free kept e.1 ∧ Free kept e.2) : Guards kept (h.setEntries r es) where
  cell := hg.cell
  slots := hg.slots
  entries := by
    intro t e he
    have hold := hg.entries t
    unfold Heap.entries at he hold
    simp only [Heap.setEntries, Array.getElem?_setIfInBounds] at he
    split at he
    · split at he
      · exact hes e he
      · cases he
    · exact hold e he
  members := hg.members
  bindings := hg.bindings
  closure := hg.closure

end Guards

end Heap

def Contract.guarding (kept : Nat → Option ListCell) (same : Fault → Fault → Prop)
    (recoding : Recoding) : Contract where
  holds := fun w => Heap.Guards kept w.heap
  own := Anything
  key := Anything
  clean := Heap.Free kept
  stops := fun _ => False
  same := same
  recoding := recoding

theorem lawful_guarding {kept : Nat → Option ListCell} {same : Fault → Fault → Prop}
    {recoding : Recoding}
    (hruns : ∀ i cell, kept i = some cell → ∀ v ∈ cell.slots, (Code.value v).Runs (Heap.Free kept))
    (hfail : ∀ r, same (.raised { reason := r, trace := [] }) (.raised { reason := r, trace := [] }))
    (hcrash : same .crashed .crashed) (hexhaust : same .exhausted .exhausted)
    (hrecoding : recoding.Faithful (fun w => Heap.Guards kept w.heap) (Heap.Free kept)) :
    (Contract.guarding kept same recoding).Lawful where
  fail := hfail
  crash := hcrash
  exhaust := hexhaust
  atom := fun _ => Heap.free_of_refs_nil rfl
  builtin := fun _ => Heap.free_of_refs_nil rfl
  dict := fun _ => by simp [Contract.guarding, Heap.Free, Value.refs]
  set := fun _ => by simp [Contract.guarding, Heap.Free, Value.refs]
  closure := fun _ => by simp [Contract.guarding, Heap.Free, Value.refs]
  tuple := Heap.free_tuple
  hashable := fun _ => trivial
  entries := fun hw r e he => ⟨trivial, (hw.entries r e he).1, (hw.entries r e he).2⟩
  members := fun hw r v hv => ⟨trivial, hw.members r v hv⟩
  slot := fun hw hr i => hw.slot (Heap.free_list.mp hr) i
  code := by
    intro w hw r i
    cases hr : kept r.id with
    | none => exact .value (hw.slot hr i)
    | some cell =>
      rw [hw.slot_eq hr]
      cases hv : cell.slots[i]? with
      | none => exact .value (Heap.free_of_refs_nil rfl)
      | some v => exact hruns _ _ hr v (Array.mem_of_getElem? hv)
  name := by
    intro w s name v hw hlookup
    obtain ⟨t, b, hb, rfl⟩ := Heap.mem_bindings_of_lookup hlookup
    exact hw.bindings t b hb
  body := fun hw r => hw.closure r
  newList := fun hvs hw => ⟨Heap.free_list.mpr hw.kept_size, hw.newList hvs⟩
  newDict := fun hes hw => hw.newDict fun e he => ⟨(hes e he).clean, (hes e he).value⟩
  newSet := fun hvs hw => hw.newSet fun v hv => (hvs v hv).clean
  newClosure := fun hpattern hbody hw => hw.newClosure hpattern hbody
  child := fun b hw => ⟨trivial, hw.child b⟩
  bind := fun name _ hv hw => hw.bind name hv
  unbind := fun name _ hw => hw.unbind _ name
  setSlot := fun i hr hv hw => hw.setSlot (Heap.free_list.mp hr) i hv
  removeSlot := fun i hr hw => hw.removeSlot (Heap.free_list.mp hr) i
  setEntries := fun r hes hw => hw.setEntries r fun e he => ⟨(hes e he).clean, (hes e he).value⟩
  note := fun _ hw => hw
  recoding := hrecoding

end EventTally
