import EventTally.Proofs.Eval.Preservation

/-! # Invariants of evaluation

An evaluation changes the world by a few primitive steps: it makes new objects, binds and unbinds
names in its own scope and in new ones, changes lists and dicts in place and notes texts. What all
of them keep is kept by every evaluation.
-/

namespace EventTally.EvalM

/-- `I` is kept by the primitive steps that bind names in scopes in `Own` and make entries and
members with keys in `Key`. -/
structure Invariant (I : World → Prop) (Own : ScopeRef → Prop) (Key : Value → Prop) : Prop where
  hashable : ∀ v : Value, v.hashable = true → Key v
  keys : ∀ {w}, I w → ∀ r, ∀ e ∈ w.heap.entries r, Key e.1
  members : ∀ {w}, I w → ∀ r, ∀ v ∈ w.heap.members r, Key v
  newList : ∀ {w} vs, I w → I { w with heap := (w.heap.newList vs).2 }
  newDict : ∀ {w es}, (∀ e ∈ es, Key e.1) → I w → I { w with heap := (w.heap.newDict es).2 }
  newSet : ∀ {w vs}, (∀ v ∈ vs, Key v) → I w → I { w with heap := (w.heap.newSet vs).2 }
  newClosure : ∀ {w} c, I w → I { w with heap := (w.heap.newClosure c).2 }
  child : ∀ {w} b, I w → Own (w.heap.child b).1 ∧ I { w with heap := (w.heap.child b).2 }
  bind : ∀ {w s} name v, Own s → I w → I { w with heap := w.heap.bind s name v }
  unbind : ∀ {w s} name, Own s → I w → I { w with heap := w.heap.unbind s name }
  setSlot : ∀ {w} r i v, I w → I { w with heap := w.heap.setSlot r i v }
  removeSlot : ∀ {w} r i, I w → I { w with heap := w.heap.removeSlot r i }
  setEntries : ∀ {w es} r, (∀ e ∈ es, Key e.1) → I w → I { w with heap := w.heap.setEntries r es }
  note : ∀ {w} text, I w → I { w with journal := text :: w.journal }

variable {I : World → Prop} {Own : ScopeRef → Prop} {Key : Value → Prop}

def Invariant.relating (_ : Invariant I Own Key) (stops : Fault → Prop) (same : Fault → Fault → Prop) :
    Contract where
  holds := I
  own := Own
  key := Key
  clean := Anything
  stops := stops
  same := same
  recoding := .same

section

variable (inv : Invariant I Own Key) {stops : Fault → Prop} {same : Fault → Fault → Prop}
include inv

theorem Invariant.accords_iff {α : Type} {Q : α → Prop} {x y : EvalM α} :
    (inv.relating stops same).Accords Q x y ↔ ∀ w, I w → match x.run w with
      | (.ok a, w') => y.run w = (.ok a, w') ∧ I w' ∧ Q a
      | (.error e, w') => stops e ∨ ∃ e', y.run w = (.error e', w') ∧ I w' ∧ same e e' := by
  refine forall₂_congr fun w _ => ?_
  rcases x.run w with ⟨e | a, w'⟩
  · exact .rfl
  · exact .rfl

theorem Invariant.map_code (cs : List Code) : cs.map (inv.relating stops same).code = cs :=
  List.map_id cs

theorem Invariant.runs (c : Code) : (inv.relating stops same).Runs c := .of_forall anything

theorem Invariant.lawful
    (hfail : ∀ r, same (.raised { reason := r, trace := [] }) (.raised { reason := r, trace := [] }))
    (hcrash : same .crashed .crashed) (hexhaust : same .exhausted .exhausted) :
    (inv.relating stops same).Lawful where
  fail := hfail
  crash := hcrash
  exhaust := hexhaust
  atom := fun _ => trivial
  builtin := fun _ => trivial
  dict := fun _ => trivial
  set := fun _ => trivial
  closure := fun _ => trivial
  tuple := ⟨fun _ _ _ => trivial, fun _ => trivial⟩
  hashable := inv.hashable _
  entries := fun hw r e he => ⟨inv.keys hw r e he, trivial, trivial⟩
  members := fun hw r v hv => ⟨inv.members hw r v hv, trivial⟩
  slot := fun _ _ _ => trivial
  code := fun _ _ _ => inv.runs _
  name := fun _ _ => trivial
  body := fun _ _ => ⟨inv.runs _, inv.runs _⟩
  newList := fun _ hw => ⟨trivial, inv.newList _ hw⟩
  newDict := fun hes hw => inv.newDict (fun e he => (hes e he).key) hw
  newSet := fun hvs hw => inv.newSet (fun v hv => (hvs v hv).key) hw
  newClosure := fun _ _ hw => inv.newClosure _ hw
  child := fun b hw => inv.child b hw
  bind := fun name hs _ hw => inv.bind name _ hs hw
  unbind := fun name hs hw => inv.unbind name hs hw
  setSlot := fun i _ _ hw => inv.setSlot _ i _ hw
  removeSlot := fun i _ hw => inv.removeSlot _ i hw
  setEntries := fun r hes hw => inv.setEntries r (fun e he => (hes e he).key) hw
  note := fun text hw => inv.note text hw
  recoding := Recoding.faithful_same

end

abbrev Invariant.contract (inv : Invariant I Own Key) : Contract :=
  inv.relating (fun _ => False) fun _ _ => True

section

variable (inv : Invariant I Own Key)
include inv

theorem Invariant.lawful_contract : inv.contract.Lawful := inv.lawful (fun _ => trivial) trivial trivial

theorem Invariant.framed_contract : inv.contract.Framed := ⟨fun _ _ => id, fun _ _ _ _ => trivial⟩

theorem Invariant.accord (fuel : Nat) : (recursor fuel).Accord (recursor fuel) inv.contract :=
  Contract.accord_self inv.lawful_contract inv.framed_contract fuel

theorem keeps_newScope (base : ScopeRef) : Keeps I Anything Own (newScope base) :=
  (Contract.accords_newScope inv.lawful_contract base).keeps

theorem keeps_bindAll {s : ScopeRef} (hs : Own s) (bindings : List (String × Value)) :
    Keeps I Anything Anything (modifyHeap (·.bindAll s bindings)) :=
  (Contract.accords_bindAll inv.lawful_contract hs fun _ _ => trivial).keeps

theorem thaw_keeps {d : Datum} (hd : d.Sound) {w : World} (hw : I w) :
    I { w with heap := (w.heap.thaw d).2 } :=
  (Contract.thaw_holds inv.lawful_contract hd hw).2.2

theorem keeps_eval (fuel : Nat) (c : Code) {s : ScopeRef} (hs : Own s) :
    Keeps I Anything Anything ((recursor fuel).eval c s) :=
  ((inv.accord fuel).eval hs (inv.runs c)).keeps

theorem keeps_applyClosure (fuel : Nat) (ref : ClosureRef) (args : List Value) :
    Keeps I Anything Anything (applyClosure (recursor fuel) ref args) :=
  (Contract.accords_applyClosure inv.lawful_contract inv.framed_contract (inv.accord fuel) ref
    fun _ _ => trivial).keeps

end

theorem invariant_anything : Invariant Anything Anything Anything where
  hashable := fun _ _ => trivial
  keys := fun _ _ _ _ => trivial
  members := fun _ _ _ _ => trivial
  newList := fun _ _ => trivial
  newDict := fun _ _ => trivial
  newSet := fun _ _ => trivial
  newClosure := fun _ _ => trivial
  child := fun _ _ => ⟨trivial, trivial⟩
  bind := fun _ _ _ _ => trivial
  unbind := fun _ _ _ => trivial
  setSlot := fun _ _ _ _ => trivial
  removeSlot := fun _ _ _ => trivial
  setEntries := fun _ _ _ => trivial
  note := fun _ _ => trivial

theorem invariant_sound (store : Store) :
    Invariant (fun w => w.store = store ∧ w.heap.Sound) Anything (·.hashable = true) where
  hashable := fun _ h => h
  keys := fun hw => hw.2.keys
  members := fun hw => hw.2.members
  newList := fun _ hw => ⟨hw.1, hw.2.of_eq rfl rfl⟩
  newDict := fun hes hw => ⟨hw.1, hw.2.newDict hes⟩
  newSet := fun hvs hw => ⟨hw.1, hw.2.newSet hvs⟩
  newClosure := fun _ hw => ⟨hw.1, hw.2.of_eq rfl rfl⟩
  child := fun _ hw => ⟨trivial, hw.1, hw.2.of_eq rfl rfl⟩
  bind := fun _ _ _ hw => ⟨hw.1, hw.2.of_eq rfl rfl⟩
  unbind := fun _ _ hw => ⟨hw.1, hw.2.of_eq rfl rfl⟩
  setSlot := fun _ _ _ hw => ⟨hw.1, hw.2.of_eq rfl rfl⟩
  removeSlot := fun _ _ hw => ⟨hw.1, hw.2.of_eq rfl rfl⟩
  setEntries := fun r hes hw => ⟨hw.1, hw.2.setEntries r hes⟩
  note := fun _ hw => ⟨hw.1, hw.2⟩

end EventTally.EvalM
