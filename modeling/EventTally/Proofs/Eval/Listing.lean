import EventTally.Proofs.Eval.Matching
import EventTally.Proofs.Eval.Preservation
import EventTally.Proofs.Eval.Trees
import EventTally.Proofs.Heap.Respelled

/-! # Lists that stand for source code

A listing is a heap in which the lists from some number on are trees of source code that refer to nothing
else. An evaluation that runs these lists does what an evaluation of the source code does, as long as
nothing but code refers to them.
-/

namespace EventTally

namespace Code

mutual

/-- The code that a datum stands for; only atoms and lists do. -/
def ofDatum : Datum → Code
  | .atom a => .value (.atom a)
  | .list ds => .form (ofData ds)
  | _ => .value .null

def ofData : List Datum → List Code
  | [] => []
  | d :: ds => ofDatum d :: ofData ds

end

mutual

theorem ofDatum_ofExpr (e : Expr) : ofDatum (.ofExpr e) = .ofExpr e := by
  match e with
  | .atom a =>
    rw [Datum.ofExpr, ofExpr]
    rfl
  | .form es => rw [Datum.ofExpr, ofExpr, ofDatum, ofData_ofExprs es]

theorem ofData_ofExprs (es : List Expr) : ofData (Datum.ofExprs es) = ofExprs es := by
  match es with
  | [] =>
    rw [Datum.ofExprs, ofExprs]
    rfl
  | e :: es => rw [Datum.ofExprs, ofExprs, ofData, ofDatum_ofExpr e, ofData_ofExprs es]

end

mutual

theorem refs_ofExpr (h : Heap) (e : Expr) : (ofExpr e).refs h = [] := by
  match e with
  | .atom a => rfl
  | .form es => rw [ofExpr, refs, refsAll_ofExprs h es]

theorem refsAll_ofExprs (h : Heap) (es : List Expr) : refsAll h (ofExprs es) = [] := by
  match es with
  | [] => rfl
  | e :: es => rw [ofExprs, refsAll, refs_ofExpr h e, refsAll_ofExprs h es, List.append_nil]

end

mutual

theorem view_ofExpr (h : Heap) (lens : Lens) (e : Expr) : (ofExpr e).view h lens = .ofExpr e := by
  match e with
  | .atom a =>
    rw [Datum.ofExpr]
    rfl
  | .form es => rw [ofExpr, view, views_ofExprs h lens es, Datum.ofExpr]

theorem views_ofExprs (h : Heap) (lens : Lens) (es : List Expr) :
    views h lens (ofExprs es) = Datum.ofExprs es := by
  match es with
  | [] =>
    rw [Datum.ofExprs]
    rfl
  | e :: es => rw [ofExprs, views, view_ofExpr h lens e, views_ofExprs h lens es, Datum.ofExprs]

end

mutual

theorem codeDatum?_ofExpr (h : Heap) (e : Expr) : h.codeDatum? (ofExpr e) = some (.ofExpr e) := by
  match e with
  | .atom a =>
    rw [Datum.ofExpr]
    rfl
  | .form es =>
    rw [ofExpr, Heap.codeDatum?, codeData?_ofExprs h es, Datum.ofExpr]
    rfl

theorem codeData?_ofExprs (h : Heap) (es : List Expr) :
    h.codeData? (ofExprs es) = some (Datum.ofExprs es) := by
  match es with
  | [] =>
    rw [Datum.ofExprs]
    rfl
  | e :: es =>
    rw [ofExprs, Heap.codeData?, codeDatum?_ofExpr h e, codeData?_ofExprs h es, Datum.ofExprs]
    rfl

end

theorem respells_tree {h : Heap} {v : Value} {e : Expr} (ht : h.Tree v e) :
    Respells h (.value v) (.ofExpr e) := by
  have hseen : h.SeenAs (Datum.ofExpr e).nesting v (.ofExpr e) := fun _ hn => ht.view hn
  obtain ⟨n, hn⟩ := (h.endsAs _).1 v _ hseen
  have hends : h.Ends (h.objectCount + 1) v.refs := fun r hr => Heap.ends_objectCount (hn r hr)
  constructor
  · intro r hr
    rw [refs_ofExpr] at hr
    cases hr
  · exact fun r hr => .inr (hends r hr)
  · intro m hm
    rw [view_ofExpr, ← ht.datum, Heap.datum_of_ends hends hm]
    rfl

end Code

/-- The lists of a heap from a number on, which are source code. -/
structure Listing where
  heap : Heap
  first : Nat
  planted : heap.Planted first

namespace Listing

variable (L : Listing)

def cells (i : Nat) : Option ListCell := if L.first ≤ i then L.heap.lists[i]? else none

/-- The value is the expression in lists of the listing. -/
structure Means (v : Value) (e : Expr) : Prop where
  tree : L.heap.Tree v e
  own : ∀ r, v = .list r → L.first ≤ r.id

mutual

def spell : Code → Code
  | .value (.list r) =>
    match L.cells r.id with
    | some _ => .ofDatum (L.heap.datum (.list r))
    | none => .value (.list r)
  | .value v => .value v
  | .form cs => .form (spellAll cs)
  | .slot r i =>
    match L.cells r.id with
    | some _ => .ofDatum (L.heap.datum (L.heap.slot r i))
    | none => .slot r i

def spellAll : List Code → List Code
  | [] => []
  | c :: cs => spell c :: spellAll cs

end

def recoding : Recoding where
  code := L.spell
  heap := fun h => { h with closures := h.closures.map (Closure.recode L.spell) }

variable {L} {h : Heap} {v : Value} {e : Expr} {r : ListRef} {cell : ListCell}

theorem spellAll_eq_map (cs : List Code) : L.spellAll cs = cs.map L.spell := by
  induction cs with
  | nil => rfl
  | cons c cs ih => rw [spellAll, ih, List.map_cons]

theorem means_list (hcell : L.cells r.id = some cell) : ∃ es, L.Means (.list r) (.form es) := by
  unfold cells at hcell
  split at hcell
  · next hfirst =>
    obtain ⟨es, ht⟩ := L.planted.trees r.id hfirst (Array.getElem?_eq_some_iff.mp hcell).1
    refine ⟨es, ht, ?_⟩
    rintro r' ⟨⟩
    exact hfirst
  · cases hcell

theorem Means.elems {es : List Expr} (hv : L.Means (.list r) (.form es)) :
    ∃ vs, L.cells r.id = some { slots := vs.toArray, size := vs.length } ∧
      List.Forall₂ L.Means vs es := by
  obtain ⟨ht, hown⟩ := hv
  have hfirst := hown r rfl
  cases ht with
  | @form _ vs _ hcell helems =>
    refine ⟨vs, (if_pos hfirst).trans hcell, ?_⟩
    refine List.forall₂_iff_get.mpr ⟨helems.length_eq, fun i hi hi' => ⟨helems.get hi hi', ?_⟩⟩
    intro r' hr'
    apply L.planted.own r.id hfirst _ hcell r'
    rw [← hr']
    exact List.mem_toArray.mpr (List.get_mem ..)

theorem means_slot (hcell : L.cells r.id = some cell) (i : Nat) :
    ∃ e, L.Means (cell.slots[i]?.getD .null) e := by
  obtain ⟨es, hv⟩ := means_list hcell
  obtain ⟨vs, hcell', helems⟩ := hv.elems
  obtain rfl := Option.some.inj (hcell.symm.trans hcell')
  dsimp only
  rw [List.getElem?_toArray]
  cases hi : vs[i]? with
  | none => exact ⟨.atom .null, .atom .null, by rintro r ⟨⟩⟩
  | some v =>
    obtain ⟨hlt, rfl⟩ := List.getElem?_eq_some_iff.mp hi
    exact ⟨_, helems.get hlt (helems.length_eq ▸ hlt)⟩

theorem slot_eq (hcell : L.cells r.id = some cell) (i : Nat) :
    L.heap.slot r i = cell.slots[i]?.getD .null := by
  unfold cells at hcell
  split at hcell
  · unfold Heap.slot Heap.list
    rw [hcell, Option.getD_some]
  · cases hcell

theorem Means.spell (hv : L.Means v e) : L.spell (.value v) = .ofExpr e := by
  cases hv.tree with
  | atom a => rfl
  | form =>
    obtain ⟨vs, hcell, -⟩ := hv.elems
    rw [Listing.spell, hcell]
    dsimp only
    rw [hv.tree.datum, Code.ofDatum_ofExpr]

theorem spell_slot (hcell : L.cells r.id = some cell) {i : Nat}
    (hv : L.Means (cell.slots[i]?.getD .null) e) : L.spell (.slot r i) = .ofExpr e := by
  rw [Listing.spell, hcell]
  dsimp only
  rw [slot_eq hcell, hv.tree.datum, Code.ofDatum_ofExpr]

theorem spell_list_of_none (hr : L.cells r.id = none) : L.spell (.value (.list r)) = .value (.list r) := by
  rw [spell, hr]

theorem spell_slot_of_none (hr : L.cells r.id = none) (i : Nat) : L.spell (.slot r i) = .slot r i := by
  rw [spell, hr]

theorem spell_value (hv : Heap.Free L.cells v) : L.spell (.value v) = .value v := by
  cases v with
  | list r => exact spell_list_of_none (Heap.free_list.mp hv)
  | _ => rfl

mutual

theorem Means.tree_of_guards (hg : Heap.Guards L.cells h) {v : Value} {e : Expr} (hv : L.Means v e) :
    h.Tree v e := by
  match e with
  | .atom a =>
    cases hv.tree
    exact .atom a
  | .form es =>
    obtain ⟨r, rfl⟩ : ∃ r, v = .list r := by
      cases hv.tree
      exact ⟨_, rfl⟩
    obtain ⟨vs, hcell, helems⟩ := hv.elems
    exact .form (hg.cell _ _ hcell) (trees_of_guards hg helems)

theorem trees_of_guards (hg : Heap.Guards L.cells h) {vs : List Value} {es : List Expr}
    (hvs : List.Forall₂ L.Means vs es) : List.Forall₂ h.Tree vs es := by
  match es, hvs with
  | [], .nil => exact .nil
  | _ :: _, .cons hv hvs => exact .cons (hv.tree_of_guards hg) (trees_of_guards hg hvs)

end

mutual

theorem respells (hg : Heap.Guards L.cells h) (c : Code) : c.Respells h (L.spell c) := by
  match c with
  | .value (.list r) =>
    cases hcell : L.cells r.id with
    | none =>
      rw [spell_list_of_none hcell]
      exact .refl h _
    | some cell =>
      obtain ⟨es, hv⟩ := means_list hcell
      rw [hv.spell]
      exact Code.respells_tree (hv.tree_of_guards hg)
  | .value (.atom a) => exact .refl h _
  | .value (.tuple vs) => exact .refl h _
  | .value (.dict r) => exact .refl h _
  | .value (.set r) => exact .refl h _
  | .value (.builtin b) => exact .refl h _
  | .value (.closure r) => exact .refl h _
  | .form cs =>
    rw [spell, spellAll_eq_map]
    exact Code.respells_form (respellsAll hg cs)
  | .slot r i =>
    cases hcell : L.cells r.id with
    | none =>
      rw [spell_slot_of_none hcell]
      exact .refl h _
    | some cell =>
      obtain ⟨e, hv⟩ := means_slot hcell i
      rw [spell_slot hcell hv]
      have htree := Code.respells_tree (hv.tree_of_guards hg)
      rw [← hg.slot_eq hcell] at htree
      exact ⟨htree.refs, htree.ends, htree.view⟩

theorem respellsAll (hg : Heap.Guards L.cells h) (cs : List Code) :
    ∀ c ∈ cs, c.Respells h (L.spell c) := by
  match cs with
  | [] => exact List.forall_mem_nil _
  | c :: cs => exact List.forall_mem_cons.mpr ⟨respells hg c, respellsAll hg cs⟩

end

theorem respelled (hg : Heap.Guards L.cells h) : Heap.Respelled L.spell h (L.recoding.heap h) where
  lists := rfl
  dicts := rfl
  sets := rfl
  rank := rfl
  count := Array.size_map
  closure := by
    intro r
    change (h.closures.map _)[r.id]?.getD _ = _
    rw [Array.getElem?_map, Heap.closure]
    cases h.closures[r.id]? with
    | none => rfl
    | some c => rfl
  pattern := fun _ => respells hg _
  body := fun _ => respells hg _

theorem spell_slots_of_none (hcell : L.cells r.id = none) : (h.slots r).map L.spell = h.slots r := by
  unfold Heap.slots
  rw [List.map_map]
  exact List.map_congr_left fun i _ => spell_slot_of_none hcell i

theorem spell_slots (hg : Heap.Guards L.cells h) {es : List Expr} (hv : L.Means (.list r) (.form es)) :
    (h.slots r).map L.spell = Code.ofExprs es := by
  obtain ⟨vs, hcell, helems⟩ := hv.elems
  unfold Heap.slots
  rw [Heap.elems_of_cell (hg.cell _ _ hcell), Code.ofExprs_eq_map, List.map_map]
  refine List.ext_getElem ?_ fun i hi hi' => ?_
  · simpa using helems.length_eq
  · simp only [List.length_map, List.length_range] at hi hi'
    rw [List.getElem_map, List.getElem_map, List.getElem_range]
    refine spell_slot hcell ?_
    dsimp only
    rw [List.getElem?_toArray, List.getElem?_eq_getElem hi]
    exact helems.get hi hi'

theorem faithful (L : Listing) :
    L.recoding.Faithful (fun w => Heap.Guards L.cells w.heap) (Heap.Free L.cells) where
  heap := fun _ => rfl
  datum := fun hg => (respelled hg).datum
  finite := fun hg => (respelled hg).isFinite
  clean := spell_value
  form := by
    intro cs
    change L.spell (.form cs) = _
    rw [spell, spellAll_eq_map]
    rfl
  list := by
    intro r
    cases hcell : L.cells r.id with
    | none => exact .inl (spell_list_of_none hcell)
    | some cell =>
      obtain ⟨es, hv⟩ := means_list hcell
      refine .inr ⟨Code.ofExprs es, ?_⟩
      change L.spell (.value (.list r)) = _
      rw [hv.spell, Code.ofExpr]
  slots := by
    intro w hg r
    change ExceptT.run (EvalM.formOf? (L.spell (.value (.list r)))) _ =
      (Except.ok (some ((w.heap.slots r).map L.spell)), _)
    cases hcell : L.cells r.id with
    | none =>
      rw [spell_list_of_none hcell, spell_slots_of_none hcell]
      rfl
    | some cell =>
      obtain ⟨es, hv⟩ := means_list hcell
      rw [hv.spell, spell_slots hg hv, Code.ofExpr]
      rfl
  slot := by
    intro w hg r i
    change ExceptT.run (EvalM.resolve (L.spell (.slot r i))) _ =
      (Except.ok (L.spell (.value (w.heap.slot r i))), _)
    cases hcell : L.cells r.id with
    | none =>
      rw [spell_slot_of_none hcell, spell_value (hg.slot hcell i)]
      rfl
    | some cell =>
      obtain ⟨e, hv⟩ := means_slot hcell i
      rw [spell_slot hcell hv, EvalM.resolve_ofExpr, hg.slot_eq hcell, hv.spell]
      rfl
  listDatum := by
    intro w hg r
    have hdatum := (respelled hg).datum?
    change (L.recoding.heap w.heap).codeDatum? (L.spell (.value (.list r))) = _
    cases hcell : L.cells r.id with
    | none =>
      rw [spell_list_of_none hcell, Heap.codeDatum?, hdatum]
    | some cell =>
      obtain ⟨es, hv⟩ := means_list hcell
      rw [hv.spell, Code.codeDatum?_ofExpr, (hv.tree_of_guards hg).datum?]
  slotDatum := by
    intro w hg r i
    have hsame := respelled hg
    change (L.recoding.heap w.heap).codeDatum? (L.spell (.slot r i)) = _
    cases hcell : L.cells r.id with
    | none =>
      rw [spell_slot_of_none hcell, Heap.codeDatum?, hsame.datum?, hsame.slot]
    | some cell =>
      obtain ⟨e, hv⟩ := means_slot hcell i
      rw [spell_slot hcell hv, Code.codeDatum?_ofExpr, hg.slot_eq hcell,
        (hv.tree_of_guards hg).datum?]

theorem Means.runs (hv : L.Means v e) : (Code.value v).Runs (Heap.Free L.cells) := by
  obtain ⟨a, rfl⟩ | ⟨r, rfl⟩ := hv.tree.atom_or_list
  · exact .value (Heap.free_of_refs_nil rfl)
  · exact .list r

/-- One evaluation runs the listing, the other has it written out; both fail in the same way. -/
def contract (L : Listing) : Contract := .guarding L.cells Eq L.recoding

theorem lawful (L : Listing) : L.contract.Lawful := by
  refine lawful_guarding ?_ (fun _ => rfl) rfl rfl L.faithful
  intro i cell hcell v hv
  obtain ⟨j, hj, rfl⟩ := Array.mem_iff_getElem.mp hv
  obtain ⟨e, hmeans⟩ := means_slot (r := ⟨i⟩) hcell j
  rw [Array.getElem?_eq_getElem hj] at hmeans
  exact hmeans.runs

theorem framed (L : Listing) : L.contract.Framed :=
  ⟨fun _ _ => id, fun name _ _ h => congrArg (Fault.within name) h⟩

theorem accord (L : Listing) (fuel : Nat) :
    (EvalM.recursor fuel).Accord (EvalM.recursor fuel) L.contract :=
  Contract.accord_self L.lawful L.framed fuel

end Listing

end EventTally
