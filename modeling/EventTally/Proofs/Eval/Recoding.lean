import EventTally.Proofs.Heap.Recoded

/-! # Other code for the same evaluation

An evaluation may run code that is written in another way: a list that stands for a form, or the form
itself. The two evaluations work on heaps that differ in the code of functions alone. A recoding says how
the second one writes the code of the first; it is faithful if both read the same forms, symbols and
data.
-/

namespace EventTally

/-- Code that may be run: it gives clean values or consists of run-time lists. -/
inductive Code.Runs (clean : Value → Prop) : Code → Prop
  | value {v : Value} (h : clean v) : Runs clean (.value v)
  | list (r : ListRef) : Runs clean (.value (.list r))
  | form {cs : List Code} (h : ∀ c ∈ cs, Runs clean c) : Runs clean (.form cs)
  | slot (r : ListRef) (i : Nat) : Runs clean (.slot r i)

namespace Code

variable {clean : Value → Prop}

theorem Runs.of_forall {c : Code} (h : ∀ v, clean v) : c.Runs clean :=
  match c with
  | .value v => .value (h v)
  | .slot r i => .slot r i
  | .form _ => .form fun _ _ => Runs.of_forall h

theorem Runs.elems {cs : List Code} (h : Runs clean (.form cs)) : ∀ c ∈ cs, c.Runs clean := by
  cases h with
  | form h => exact h

theorem Runs.of_not_list {v : Value} (h : Runs clean (.value v)) (hlist : ∀ r, v ≠ .list r) : clean v := by
  cases h with
  | value h => exact h
  | list r => exact absurd rfl (hlist r)

theorem runs_slots (h : Heap) (r : ListRef) : ∀ c ∈ h.slots r, c.Runs clean := by
  intro c hc
  obtain ⟨i, -, rfl⟩ := List.mem_map.mp hc
  exact .slot r i

end Code

def Closure.recode (f : Code → Code) (c : Closure) : Closure :=
  { c with pattern := f c.pattern, body := f c.body }

/-- How the second of two evaluations writes code, and its heap. -/
structure Recoding where
  code : Code → Code
  heap : Heap → Heap

namespace Recoding

abbrev world (t : Recoding) (w : World) : World := { w with heap := t.heap w.heap }

/-- The code is left as it is. -/
def same : Recoding := ⟨id, id⟩

/-- Code that is written in another way reads as before in worlds where `holds`, and values that are
`clean` are not written in another way. -/
structure Faithful (t : Recoding) (holds : World → Prop) (clean : Value → Prop) : Prop where
  heap : ∀ h, t.heap h = { h with closures := h.closures.map (Closure.recode t.code) }
  datum : ∀ {w}, holds w → (t.heap w.heap).datum = w.heap.datum
  finite : ∀ {w}, holds w → (t.heap w.heap).isFinite = w.heap.isFinite
  clean : ∀ {v}, clean v → t.code (.value v) = .value v
  form : ∀ cs, t.code (.form cs) = .form (cs.map t.code)
  list : ∀ r, t.code (.value (.list r)) = .value (.list r) ∨ ∃ cs, t.code (.value (.list r)) = .form cs
  slots : ∀ {w}, holds w → ∀ r, (EvalM.formOf? (t.code (.value (.list r)))).run (t.world w) =
    (.ok (some ((w.heap.slots r).map t.code)), t.world w)
  slot : ∀ {w}, holds w → ∀ r i, (EvalM.resolve (t.code (.slot r i))).run (t.world w) =
    (.ok (t.code (.value (w.heap.slot r i))), t.world w)
  listDatum : ∀ {w}, holds w → ∀ r,
    (t.heap w.heap).codeDatum? (t.code (.value (.list r))) = w.heap.datum? (.list r)
  slotDatum : ∀ {w}, holds w → ∀ r i,
    (t.heap w.heap).codeDatum? (t.code (.slot r i)) = w.heap.datum? (w.heap.slot r i)

theorem faithful_same {holds : World → Prop} {clean : Value → Prop} : same.Faithful holds clean where
  heap := by
    intro h
    have hid : Closure.recode id = id := rfl
    change h = { h with closures := h.closures.map (Closure.recode id) }
    rw [hid, Array.map_id]
  datum := fun _ => rfl
  finite := fun _ => rfl
  clean := fun _ => rfl
  form := fun cs => congrArg Code.form (List.map_id cs).symm
  list := fun _ => .inl rfl
  slots := by
    intro w _ r
    change _ = (Except.ok (some ((w.heap.slots r).map id)), w)
    rw [List.map_id]
    rfl
  slot := fun _ _ _ => rfl
  listDatum := fun _ _ => rfl
  slotDatum := fun _ _ _ => rfl

namespace Faithful

variable {t : Recoding} {holds : World → Prop} {clean : Value → Prop} (ht : t.Faithful holds clean)
include ht

theorem recoded {w : World} (hw : holds w) : w.heap.Recoded (t.heap w.heap) where
  lists := by rw [ht.heap]
  dicts := by rw [ht.heap]
  sets := by rw [ht.heap]
  rank := by rw [ht.heap]
  count := by rw [ht.heap, Array.size_map]
  layers := by rw [ht.heap]
  datum := ht.datum hw
  finite := ht.finite hw

theorem closure {r : ClosureRef} (hnull : clean .null) (h : Heap) :
    (t.heap h).closure r = (h.closure r).recode t.code := by
  rw [ht.heap, Heap.closure, Heap.closure, Array.getElem?_map]
  cases h.closures[r.id]? with
  | some c => rfl
  | none =>
    simp only [Option.map_none, Option.getD_none, Closure.recode, ht.clean hnull]

theorem newClosure (h : Heap) (c : Closure) :
    (t.heap h).newClosure (c.recode t.code) = ((h.newClosure c).1, t.heap (h.newClosure c).2) := by
  rw [ht.heap, ht.heap]
  simp only [Heap.newClosure, Array.size_map, Array.map_push]

theorem newList (h : Heap) (vs : List Value) :
    (t.heap h).newList vs = ((h.newList vs).1, t.heap (h.newList vs).2) := by
  rw [ht.heap, ht.heap]
  rfl

theorem newDict (h : Heap) (es : List (Value × Value)) :
    (t.heap h).newDict es = ((h.newDict es).1, t.heap (h.newDict es).2) := by
  rw [ht.heap, ht.heap]
  rfl

theorem newSet (h : Heap) (vs : List Value) :
    (t.heap h).newSet vs = ((h.newSet vs).1, t.heap (h.newSet vs).2) := by
  rw [ht.heap, ht.heap]
  rfl

theorem child (h : Heap) (s : ScopeRef) :
    (t.heap h).child s = ((h.child s).1, t.heap (h.child s).2) := by
  rw [ht.heap, ht.heap]
  rfl

theorem bind (h : Heap) (s : ScopeRef) (name : String) (v : Value) :
    (t.heap h).bind s name v = t.heap (h.bind s name v) := by
  rw [ht.heap, ht.heap]
  rfl

theorem bindAll (h : Heap) (s : ScopeRef) (bindings : List (String × Value)) :
    (t.heap h).bindAll s bindings = t.heap (h.bindAll s bindings) := by
  induction bindings generalizing h with
  | nil => rfl
  | cons b bindings ih =>
    change ((t.heap h).bind s b.1 b.2).bindAll s bindings = _
    rw [ht.bind, ih]
    rfl

theorem unbind {w : World} (hw : holds w) (s : ScopeRef) (name : String) :
    (t.heap w.heap).unbind s name = t.heap (w.heap.unbind s name) := by
  have hshows := (ht.recoded hw).baseShows
  unfold Heap.unbind
  rw [hshows, ht.heap, ht.heap]

theorem setSlot (h : Heap) (r : ListRef) (i : Nat) (v : Value) :
    (t.heap h).setSlot r i v = t.heap (h.setSlot r i v) := by
  rw [ht.heap, ht.heap]
  rfl

theorem removeSlot (h : Heap) (r : ListRef) (i : Nat) :
    (t.heap h).removeSlot r i = t.heap (h.removeSlot r i) := by
  rw [ht.heap, ht.heap]
  rfl

theorem setEntries (h : Heap) (r : DictRef) (es : List (Value × Value)) :
    (t.heap h).setEntries r es = t.heap (h.setEntries r es) := by
  rw [ht.heap, ht.heap]
  rfl

theorem put {w : World} (hw : holds w) (col key v : Value) :
    (t.heap w.heap).put col key v = (w.heap.put col key v).map t.heap := by
  have hsame := ht.recoded hw
  unfold Heap.put
  rw [hsame.insertEntry, hsame.entries, hsame.elems]
  split
  · cases w.heap.insertEntry key v (w.heap.entries _) with
    | error r => rfl
    | ok es => exact congrArg Except.ok (ht.setEntries w.heap _ es)
  · cases Heap.position key (w.heap.elems _).length with
    | error r => rfl
    | ok i => exact congrArg Except.ok (ht.setSlot w.heap _ i v)
  · rfl

theorem remove {w : World} (hw : holds w) (col key : Value) :
    (t.heap w.heap).remove col key = (w.heap.remove col key).map (Prod.map id t.heap) := by
  have hsame := ht.recoded hw
  unfold Heap.remove
  rw [hsame.findEntry, hsame.sameKey, hsame.entries, hsame.elems, hsame.slot, hsame.datum]
  split
  · dsimp only
    split
    · exact congrArg (fun h => Except.ok (_, h)) (ht.setEntries w.heap _ _)
    · rfl
  · cases Heap.position key (w.heap.elems _).length with
    | error r => rfl
    | ok i => exact congrArg (fun h => Except.ok (_, h)) (ht.removeSlot w.heap _ i)
  · rfl

omit ht

mutual

theorem codeDatum? (ht : t.Faithful holds clean) {w : World} (hw : holds w) {c : Code}
    (hc : c.Runs clean) : (t.heap w.heap).codeDatum? (t.code c) = w.heap.codeDatum? c := by
  match c, hc with
  | _, .value hv =>
    rw [ht.clean hv, Heap.codeDatum?, Heap.codeDatum?, (ht.recoded hw).datum?]
  | _, .list r => exact ht.listDatum hw r
  | .form cs, .form hcs =>
    rw [ht.form, Heap.codeDatum?, Heap.codeDatum?, codeData? ht hw hcs]
  | _, .slot r i => exact ht.slotDatum hw r i

theorem codeData? (ht : t.Faithful holds clean) {w : World} (hw : holds w) {cs : List Code}
    (hcs : ∀ c ∈ cs, c.Runs clean) :
    (t.heap w.heap).codeData? (cs.map t.code) = w.heap.codeData? cs := by
  match cs with
  | [] => rfl
  | c :: cs =>
    obtain ⟨hc, hcs⟩ := List.forall_mem_cons.mp hcs
    rw [List.map_cons, Heap.codeData?, Heap.codeData?, codeDatum? ht hw hc, codeData? ht hw hcs]

end

mutual

theorem thaw (ht : t.Faithful holds clean) (h : Heap) (d : Datum) :
    (t.heap h).thaw d = ((h.thaw d).1, t.heap (h.thaw d).2) := by
  match d with
  | .atom a => rfl
  | .builtin name => rfl
  | .closure .. => rfl
  | .list ds =>
    simp only [Heap.thaw, thawAll ht h ds, ht.newList]
  | .tuple ds => simp only [Heap.thaw, thawAll ht h ds]
  | .dict es => simp only [Heap.thaw, thawEntries ht h es, ht.newDict]
  | .set ds => simp only [Heap.thaw, thawAll ht h ds, ht.newSet]

theorem thawAll (ht : t.Faithful holds clean) (h : Heap) (ds : List Datum) :
    (t.heap h).thawAll ds = ((h.thawAll ds).1, t.heap (h.thawAll ds).2) := by
  match ds with
  | [] => rfl
  | d :: ds => simp only [Heap.thawAll, thaw ht h d, thawAll ht _ ds]

theorem thawEntries (ht : t.Faithful holds clean) (h : Heap) (es : List (Datum × Datum)) :
    (t.heap h).thawEntries es = ((h.thawEntries es).1, t.heap (h.thawEntries es).2) := by
  match es with
  | [] => rfl
  | (k, v) :: es => simp only [Heap.thawEntries, thaw ht _ k, thaw ht _ v, thawEntries ht _ es]

end

end Faithful

end Recoding

end EventTally
