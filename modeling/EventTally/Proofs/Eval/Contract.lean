import EventTally.Proofs.Computation
import EventTally.Proofs.Eval.Recoding
import EventTally.Proofs.Heap.Sound
import EventTally.Proofs.Keyed

/-! # Contracts of evaluations

An evaluation changes the world by a few primitive steps: it makes new objects, binds and unbinds
names in its own scope and in new ones, changes lists and dicts in place and notes texts. A contract
says what such steps keep, which values they may pass on, and how the code and the faults of two
evaluations that run side by side correspond. If the steps keep it, whole evaluations do.
-/

namespace EventTally

/-- The fault as it comes out of a call. -/
def Fault.within (name : String) : Fault → Fault
  | .raised e => .raised { e with trace := name :: e.trace }
  | fault => fault

theorem EvalM.withFrame_eq {α : Type} (name : String) (act : EvalM α) :
    withFrame name act = tryCatch act fun f => throw (f.within name) := by
  unfold withFrame
  congr 1
  funext f
  cases f <;> rfl

theorem EvalM.run_withFrame {α : Type} (name : String) (x : EvalM α) (w : World) :
    (withFrame name x).run w = ((x.run w).1.mapError (·.within name), (x.run w).2) := by
  rw [withFrame_eq, run_tryCatch]
  rcases x.run w with ⟨f | a, w'⟩ <;> rfl

namespace Arith

theorem apply_eq_atom {op : Arith} {a b r : Value} (h : op.apply a b = .ok r) : ∃ c, r = .atom c := by
  have hfloats : ∀ {r}, (do
      let x ← a.toFloat?
      let y ← b.toFloat?
      return Value.float (← op.onFloats x y)) = Except.ok r → ∃ c, r = .atom c := by
    intro r hr
    obtain ⟨x, -, hr⟩ := Codec.bind_eq_ok hr
    obtain ⟨y, -, hr⟩ := Codec.bind_eq_ok hr
    obtain ⟨z, -, hr⟩ := Codec.bind_eq_ok hr
    cases hr
    exact ⟨_, rfl⟩
  unfold Arith.apply at h
  dsimp only at h
  split at h
  · split at h
    · cases h
      exact ⟨_, rfl⟩
    · exact hfloats h
  · exact hfloats h

theorem foldlM_apply {op : Arith} {P : Value → Prop} (hP : ∀ a, P (.atom a)) {args : List Value}
    {a r : Value} (ha : P a) (h : args.foldlM op.apply a = .ok r) : P r := by
  refine Codec.foldlM_invariant ?_ ha h
  intro a b _ c _ happly
  obtain ⟨x, rfl⟩ := apply_eq_atom happly
  exact hP x

theorem fold_eq_ok {op : Arith} {P : Value → Prop} (hP : ∀ a, P (.atom a)) {args : List Value}
    (hargs : ∀ v ∈ args, P v) {r : Value} (h : op.fold args = .ok r) : P r := by
  unfold Arith.fold at h
  split at h
  · exact foldlM_apply hP (hP _) h
  · exact foldlM_apply hP (hP _) h
  · cases h
    exact hP _
  · exact foldlM_apply hP (hargs _ (by simp)) h

end Arith

/-- What evaluations keep, and how two that run side by side may differ. -/
structure Contract where
  /-- What holds of the world. -/
  holds : World → Prop
  /-- The scopes in which names may be bound. -/
  own : ScopeRef → Prop
  /-- The keys of dicts and the members of sets. -/
  key : Value → Prop
  /-- The values that expressions may give and objects may hold. -/
  clean : Value → Prop
  /-- The faults with which the first of the two gives up. -/
  stops : Fault → Prop
  /-- The faults of the two that correspond. -/
  same : Fault → Fault → Prop
  /-- The code of the second of the two. -/
  recoding : Recoding

namespace Contract

/-- How the second of the two writes code. -/
abbrev code (K : Contract) : Code → Code := K.recoding.code

/-- The heap of the second of the two. -/
abbrev heap (K : Contract) : Heap → Heap := K.recoding.heap

abbrev Runs (K : Contract) (c : Code) : Prop := c.Runs K.clean

inductive Reads (K : Contract) : Place → Prop
  | value {v : Value} (h : K.clean v) : Reads K (.value v)
  | slot {r : ListRef} (h : K.clean (.list r)) (i : Nat) : Reads K (.slot r i)

structure Entry (K : Contract) (e : Value × Value) : Prop where
  key : K.key e.1
  clean : K.clean e.1
  value : K.clean e.2

structure Member (K : Contract) (v : Value) : Prop where
  key : K.key v
  clean : K.clean v

/-- Two evaluations do the same up to their faults, unless the first gives up. -/
abbrev Accords (K : Contract) {α : Type} (Q : α → Prop) (x y : EvalM α) : Prop :=
  EventTally.Accords K.recoding.world K.holds K.stops K.same id Q x y

/-- Two evaluations do the same, but that the second comes to `g` of the result. -/
abbrev AccordsAs (K : Contract) {α β : Type} (g : α → β) (Q : α → Prop) (x : EvalM α) (y : EvalM β) :
    Prop :=
  EventTally.Accords K.recoding.world K.holds K.stops K.same g Q x y

structure Lawful (K : Contract) : Prop where
  fail : ∀ r, K.same (.raised { reason := r, trace := [] }) (.raised { reason := r, trace := [] })
  crash : K.same .crashed .crashed
  exhaust : K.same .exhausted .exhausted
  atom : ∀ a, K.clean (.atom a)
  builtin : ∀ b, K.clean (.builtin b)
  dict : ∀ r, K.clean (.dict r)
  set : ∀ r, K.clean (.set r)
  closure : ∀ r, K.clean (.closure r)
  tuple : ∀ {vs}, K.clean (.tuple vs) ↔ ∀ v ∈ vs, K.clean v
  hashable : ∀ {v}, v.hashable = true → K.key v
  entries : ∀ {w}, K.holds w → ∀ r, ∀ e ∈ w.heap.entries r, K.Entry e
  members : ∀ {w}, K.holds w → ∀ r, ∀ v ∈ w.heap.members r, K.Member v
  slot : ∀ {w r}, K.holds w → K.clean (.list r) → ∀ i, K.clean (w.heap.slot r i)
  code : ∀ {w}, K.holds w → ∀ r i, K.Runs (.value (w.heap.slot r i))
  name : ∀ {w s name v}, K.holds w → w.heap.lookup s name = some v → K.clean v
  body : ∀ {w}, K.holds w → ∀ r,
    K.Runs (w.heap.closure r).pattern ∧ K.Runs (w.heap.closure r).body
  newList : ∀ {w vs}, (∀ v ∈ vs, K.clean v) → K.holds w →
    K.clean (.list (w.heap.newList vs).1) ∧ K.holds { w with heap := (w.heap.newList vs).2 }
  newDict : ∀ {w es}, (∀ e ∈ es, K.Entry e) → K.holds w →
    K.holds { w with heap := (w.heap.newDict es).2 }
  newSet : ∀ {w vs}, (∀ v ∈ vs, K.Member v) → K.holds w →
    K.holds { w with heap := (w.heap.newSet vs).2 }
  newClosure : ∀ {w c}, K.Runs c.pattern → K.Runs c.body → K.holds w →
    K.holds { w with heap := (w.heap.newClosure c).2 }
  child : ∀ {w} b, K.holds w → K.own (w.heap.child b).1 ∧ K.holds { w with heap := (w.heap.child b).2 }
  bind : ∀ {w s v} name, K.own s → K.clean v → K.holds w →
    K.holds { w with heap := w.heap.bind s name v }
  unbind : ∀ {w s} name, K.own s → K.holds w → K.holds { w with heap := w.heap.unbind s name }
  setSlot : ∀ {w r v} i, K.clean (.list r) → K.clean v → K.holds w →
    K.holds { w with heap := w.heap.setSlot r i v }
  removeSlot : ∀ {w r} i, K.clean (.list r) → K.holds w →
    K.holds { w with heap := w.heap.removeSlot r i }
  setEntries : ∀ {w es} r, (∀ e ∈ es, K.Entry e) → K.holds w →
    K.holds { w with heap := w.heap.setEntries r es }
  note : ∀ {w} text, K.holds w → K.holds { w with journal := text :: w.journal }
  recoding : K.recoding.Faithful K.holds K.clean

variable {K : Contract}

theorem reads_values {vs : List Value} (hvs : ∀ v ∈ vs, K.clean v) :
    ∀ p ∈ vs.map Place.value, K.Reads p := by
  intro p hp
  obtain ⟨v, hv, rfl⟩ := List.mem_map.mp hp
  exact .value (hvs v hv)

theorem reads_places {r : ListRef} (hr : K.clean (.list r)) (h : Heap) :
    ∀ p ∈ h.places r, K.Reads p := by
  intro p hp
  obtain ⟨i, -, rfl⟩ := List.mem_map.mp hp
  exact .slot hr i

section

variable {w : World} (hK : K.Lawful)
include hK

theorem runs_sym (name : String) : K.Runs (.sym name) := .value (hK.atom _)

theorem runs_bodyOf {cs : List Code} (hcs : ∀ c ∈ cs, K.Runs c) : K.Runs (EvalM.bodyOf cs) := by
  unfold EvalM.bodyOf
  split
  · exact hcs _ (by simp)
  · exact .form (List.forall_mem_cons.mpr ⟨runs_sym hK _, hcs⟩)

theorem clean_pair {v v' : Value} (hv : K.clean v) (hv' : K.clean v') : K.clean (.tuple [v, v']) := by
  rw [hK.tuple]
  simp [hv, hv']

theorem clean_charStrings (s : String) : ∀ v ∈ Heap.charStrings s, K.clean v := by
  intro v hv
  obtain ⟨c, -, rfl⟩ := List.mem_map.mp hv
  exact hK.atom _

variable (hw : K.holds w)
include hw

theorem clean_elems {r : ListRef} (hr : K.clean (.list r)) : ∀ v ∈ w.heap.elems r, K.clean v := by
  intro v hv
  obtain ⟨i, hi, rfl⟩ := List.mem_iff_getElem.mp (List.mem_of_mem_take hv)
  have hslot : w.heap.slot r i = (w.heap.list r).slots.toList[i] := by
    rw [Array.length_toList] at hi
    simp [Heap.slot, Array.getElem?_eq_getElem hi]
  rw [← hslot]
  exact hK.slot hw hr i

theorem clean_iterate {v : Value} (hv : K.clean v) {elems : List Value}
    (h : w.heap.iterate v = .ok elems) : ∀ e ∈ elems, K.clean e := by
  unfold Heap.iterate at h
  split at h
  · cases h
    exact clean_charStrings hK _
  · cases h
    exact hK.tuple.mp hv
  · cases h
    exact clean_elems hK hw hv
  · cases h
    intro e he
    obtain ⟨⟨k, v⟩, hentry, rfl⟩ := List.mem_map.mp he
    have hkv := hK.entries hw _ _ (Keyed.mem_ranked.mp hentry)
    exact clean_pair hK hkv.clean hkv.value
  · cases h
    exact fun e he => (hK.members hw _ e (Keyed.mem_ranked.mp he)).clean
  · cases h

theorem reads_loopPlaces {v : Value} (hv : K.clean v) {places : List Place}
    (h : w.heap.loopPlaces v = .ok places) : ∀ p ∈ places, K.Reads p := by
  unfold Heap.loopPlaces at h
  split at h
  · cases h
    exact reads_places hv _
  · cases helems : w.heap.iterate v with
    | error r =>
      rw [helems] at h
      cases h
    | ok elems =>
      rw [helems] at h
      cases h
      exact reads_values (clean_iterate hK hw hv helems)

omit hK hw in
theorem clean_findEntry {entries : List (Value × Value)} (hentries : ∀ e ∈ entries, K.Entry e)
    {k v : Value} (h : w.heap.findEntry entries k = some v) : K.clean v := by
  obtain ⟨e, hfind, rfl⟩ := Option.map_eq_some_iff.mp h
  exact (hentries e (List.mem_of_find?_eq_some hfind)).value

omit hw in
theorem clean_elemAt {elems : List Value} (helems : ∀ v ∈ elems, K.clean v) {k v : Value}
    (h : Heap.elemAt elems k = .ok v) : K.clean v := by
  obtain ⟨i, -, h⟩ := Codec.bind_eq_ok h
  cases h
  cases hget : elems[i]? with
  | none => exact hK.atom _
  | some v => exact helems v (List.mem_of_getElem? hget)

theorem clean_index {col k v : Value} (hcol : K.clean col) (h : w.heap.index col k = .ok v) :
    K.clean v := by
  unfold Heap.index at h
  split at h
  · split at h
    · next hfind =>
      cases h
      exact clean_findEntry (hK.entries hw _) hfind
    · cases h
  · exact clean_elemAt hK (clean_elems hK hw hcol) h
  · exact clean_elemAt hK (hK.tuple.mp hcol) h
  · exact clean_elemAt hK (clean_charStrings hK _) h
  · cases h

theorem clean_read {p : Place} (hp : K.Reads p) : K.clean (w.heap.read p) := by
  cases hp with
  | value h => exact h
  | slot h i => exact hK.slot hw h i

omit hw in
theorem entry_insertEntry {h : Heap} {k v : Value} {entries entries' : List (Value × Value)}
    (hk : K.clean k) (hv : K.clean v) (hentries : ∀ e ∈ entries, K.Entry e)
    (hins : h.insertEntry k v entries = .ok entries') : ∀ e ∈ entries', K.Entry e := by
  obtain ⟨hhash, hmem⟩ := Heap.insertEntry_eq_ok hins
  intro e he
  rcases hmem e he with rfl | he
  · exact ⟨hK.hashable hhash, hk, hv⟩
  · exact hentries e he

omit hw in
theorem member_insertMember {h : Heap} {k : Value} {members members' : List Value} (hk : K.clean k)
    (hmembers : ∀ v ∈ members, K.Member v) (hins : h.insertMember k members = .ok members') :
    ∀ v ∈ members', K.Member v := by
  obtain ⟨hhash, hmem⟩ := Heap.insertMember_eq_ok hins
  intro v hv
  rcases hmem v hv with rfl | hv
  · exact ⟨hK.hashable hhash, hk⟩
  · exact hmembers v hv

omit hw hK in
theorem entry_erase {same : Value → Bool} {entries : List (Value × Value)}
    (hentries : ∀ e ∈ entries, K.Entry e) : ∀ e ∈ Keyed.erase same entries, K.Entry e :=
  fun e he => hentries e (List.mem_of_mem_eraseP he)

theorem put_holds {col key v : Value} (hcol : K.clean col) (hkey : K.clean key) (hv : K.clean v)
    {h : Heap} (hput : w.heap.put col key v = .ok h) : K.holds { w with heap := h } := by
  unfold Heap.put at hput
  split at hput
  case h_1 ref =>
    rcases hins : w.heap.insertEntry key v (w.heap.entries ref) with _ | es
    · rw [hins] at hput
      cases hput
    · rw [hins] at hput
      cases hput
      exact hK.setEntries ref (entry_insertEntry hK hkey hv (hK.entries hw ref) hins) hw
  case h_2 ref =>
    rcases hpos : Heap.position key (w.heap.elems ref).length with _ | i
    · rw [hpos] at hput
      cases hput
    · rw [hpos] at hput
      cases hput
      exact hK.setSlot i hcol hv hw
  case h_3 => cases hput

theorem remove_holds {col key : Value} (hcol : K.clean col) {removed : Value × Heap}
    (hremove : w.heap.remove col key = .ok removed) :
    K.clean removed.1 ∧ K.holds { w with heap := removed.2 } := by
  unfold Heap.remove at hremove
  split at hremove
  case h_1 ref =>
    dsimp only at hremove
    split at hremove
    · next hfind =>
      cases hremove
      have hentries := hK.entries hw ref
      exact ⟨clean_findEntry hentries hfind, hK.setEntries ref (entry_erase hentries) hw⟩
    · cases hremove
  case h_2 ref =>
    obtain ⟨i, -, hremove⟩ := Codec.bind_eq_ok hremove
    cases hremove
    exact ⟨hK.slot hw hcol i, hK.removeSlot i hcol hw⟩
  case h_3 => cases hremove

end

section

variable (hK : K.Lawful)
include hK

theorem recoded {w : World} (hw : K.holds w) : w.heap.Recoded (K.heap w.heap) := hK.recoding.recoded hw

theorem code_form (cs : List Code) : K.code (.form cs) = .form (cs.map K.code) := hK.recoding.form cs

theorem code_clean {v : Value} (hv : K.clean v) : K.code (.value v) = .value v := hK.recoding.clean hv

theorem code_closure (r : ClosureRef) (h : Heap) :
    (K.heap h).closure r = (h.closure r).recode K.code :=
  hK.recoding.closure (hK.atom _) h

theorem code_bodyOf (cs : List Code) : EvalM.bodyOf (cs.map K.code) = K.code (EvalM.bodyOf cs) := by
  have hform : Code.form (.sym "do" :: cs.map K.code) = K.code (.form (.sym "do" :: cs)) := by
    rw [code_form hK, List.map_cons, code_clean hK (hK.atom _)]
  match cs with
  | [c] => rfl
  | [] => exact hform
  | _ :: _ :: _ => exact hform

theorem code_cases {c : Code} (hc : K.Runs c) (hslot : ∀ r i, c ≠ .slot r i) :
    (∃ v, c = .value v ∧ K.code c = .value v) ∨
    (∃ r cs, c = .value (.list r) ∧ K.code c = .form cs) ∨
    ∃ cs, c = .form cs ∧ K.code c = .form (cs.map K.code) := by
  cases hc with
  | value hv => exact .inl ⟨_, rfl, code_clean hK hv⟩
  | list r =>
    obtain hlist | ⟨cs, hform⟩ := hK.recoding.list r
    · exact .inl ⟨_, rfl, hlist⟩
    · exact .inr (.inl ⟨r, cs, rfl, hform⟩)
  | form _ => exact .inr (.inr ⟨_, rfl, code_form hK _⟩)
  | slot r i => exact absurd rfl (hslot r i)

end

section

variable {α β γ δ ρ : Type} {g : α → β} {k : γ → δ} {Q : α → Prop} {R : γ → Prop}

theorem accords_pure {a : α} (h : Q a) : K.Accords Q (pure a) (pure a) := Accords.pure h

theorem accords_heap_bind {f : Heap → EvalM γ} {f' : Heap → EvalM δ}
    (h : ∀ w, K.holds w → K.AccordsAs k R (f w.heap) (f' (K.heap w.heap))) :
    K.AccordsAs k R (EvalM.heap >>= f) (EvalM.heap >>= f') :=
  Accords.get_bind h

theorem accords_heap_map {f f' : Heap → α}
    (h : ∀ w, K.holds w → f' (K.heap w.heap) = f w.heap ∧ Q (f w.heap)) :
    K.Accords Q (do return f (← EvalM.heap)) (do return f' (← EvalM.heap)) := by
  refine accords_heap_bind fun w hw => ?_
  obtain ⟨heq, hresult⟩ := h w hw
  rw [heq]
  exact accords_pure hresult

theorem accords_modifyHeap {f f' : Heap → Heap}
    (h : ∀ w, K.holds w →
      f' (K.heap w.heap) = K.heap (f w.heap) ∧ K.holds { w with heap := f w.heap }) :
    K.Accords Anything (EvalM.modifyHeap f) (EvalM.modifyHeap f') := by
  intro w hw
  obtain ⟨heq, hkeep⟩ := h w hw
  refine ⟨?_, hkeep, trivial⟩
  change (Except.ok (), { w with heap := f' (K.heap w.heap) }) = _
  rw [heq]

theorem accords_allocate {make make' : Heap → ρ × Heap} {Q : ρ → Prop}
    (h : ∀ w, K.holds w → make' (K.heap w.heap) = ((make w.heap).1, K.heap (make w.heap).2) ∧
      Q (make w.heap).1 ∧ K.holds { w with heap := (make w.heap).2 }) :
    K.Accords Q (EvalM.allocate make) (EvalM.allocate make') := by
  intro w hw
  obtain ⟨heq, hresult, hkeep⟩ := h w hw
  refine ⟨?_, hkeep, hresult⟩
  change (Except.ok (make' (K.heap w.heap)).1, { w with heap := (make' (K.heap w.heap)).2 }) = _
  rw [heq]
  rfl

variable (hK : K.Lawful)
include hK

theorem accords_fail (r : Reason) : K.AccordsAs g Q (EvalM.fail r) (EvalM.fail r) :=
  Accords.throw (hK.fail r)

theorem accords_ofExcept {x : Except Reason α} (h : ∀ a, x = .ok a → Q a) :
    K.Accords Q (EvalM.ofExcept x) (EvalM.ofExcept x) := by
  cases x with
  | ok a => exact accords_pure (h a rfl)
  | error r => exact accords_fail hK r

theorem accords_ofExceptAs {x : Except Reason α} (h : ∀ a, x = .ok a → Q a) :
    K.AccordsAs g Q (EvalM.ofExcept x) (EvalM.ofExcept (x.map g)) := by
  cases x with
  | ok a => exact Accords.pureAs rfl (h a rfl)
  | error r => exact accords_fail hK r

theorem accords_ofExcept_any (x : Except Reason α) :
    K.Accords Anything (EvalM.ofExcept x) (EvalM.ofExcept x) :=
  accords_ofExcept hK fun _ _ => anything _

theorem accords_ofOption {x : Option α} (h : ∀ a, x = some a → Q a) :
    K.Accords Q (EvalM.ofOption x) (EvalM.ofOption x) := by
  cases x with
  | some a => exact accords_pure (h a rfl)
  | none => exact Accords.throw hK.exhaust

theorem accords_ofOption_any (x : Option α) :
    K.Accords Anything (EvalM.ofOption x) (EvalM.ofOption x) :=
  accords_ofOption hK fun _ _ => anything _

theorem accords_replaceHeap {change : Heap → Except Reason α} (recode : α → α) (fresh : α → Heap)
    {next : α → EvalM γ} {next' : α → EvalM δ}
    (hchange : ∀ w, K.holds w → change (K.heap w.heap) = (change w.heap).map recode)
    (hfresh : ∀ a, fresh (recode a) = K.heap (fresh a))
    (h : ∀ w a, K.holds w → change w.heap = .ok a → Q a ∧ K.holds { w with heap := fresh a })
    (hnext : ∀ a, Q a → K.AccordsAs k R (next a) (next' (recode a))) :
    K.AccordsAs k R
      (do
        let a ← EvalM.ofExcept (change (← EvalM.heap))
        EvalM.modifyHeap fun _ => fresh a
        next a)
      (do
        let a ← EvalM.ofExcept (change (← EvalM.heap))
        EvalM.modifyHeap fun _ => fresh a
        next' a) := by
  intro w hw
  have hrun {γ : Type} (next : α → EvalM γ) (w : World) : ExceptT.run (do
        let a ← EvalM.ofExcept (change (← EvalM.heap))
        EvalM.modifyHeap fun _ => fresh a
        next a) w =
      ((EvalM.ofExcept (change w.heap) : EvalM α) >>= fun a =>
        EvalM.modifyHeap (fun _ => fresh a) >>= fun _ => next a).run w := rfl
  rw [hrun, hrun, hchange w hw]
  cases hc : change w.heap with
  | error r => exact .inr ⟨_, rfl, hw, hK.fail r⟩
  | ok a =>
    obtain ⟨ha, hkeep⟩ := h w a hw hc
    have hworld : K.recoding.world { w with heap := fresh a } = { w with heap := fresh (recode a) } := by
      rw [hfresh]
    have hsecond := hnext a ha _ hkeep
    rwa [hworld] at hsecond

theorem accords_newList {vs : List Value} (hvs : ∀ v ∈ vs, K.clean v) :
    K.Accords K.clean (EvalM.newList vs) (EvalM.newList vs) :=
  (accords_allocate (Q := fun r => K.clean (.list r)) fun w hw =>
    ⟨hK.recoding.newList w.heap vs, hK.newList hvs hw⟩).bind fun _ hr => accords_pure hr

theorem accords_newDict {es : List (Value × Value)} (hes : ∀ e ∈ es, K.Entry e) :
    K.Accords K.clean (EvalM.newDict es) (EvalM.newDict es) :=
  (accords_allocate (Q := Anything) fun w hw =>
    ⟨hK.recoding.newDict w.heap es, trivial, hK.newDict hes hw⟩).bind fun r _ =>
    accords_pure (hK.dict r)

theorem accords_newSet {vs : List Value} (hvs : ∀ v ∈ vs, K.Member v) :
    K.Accords K.clean (EvalM.newSet vs) (EvalM.newSet vs) :=
  (accords_allocate (Q := Anything) fun w hw =>
    ⟨hK.recoding.newSet w.heap vs, trivial, hK.newSet hvs hw⟩).bind fun r _ =>
    accords_pure (hK.set r)

theorem accords_newScope (base : ScopeRef) :
    K.Accords K.own (EvalM.newScope base) (EvalM.newScope base) :=
  accords_allocate fun w hw => ⟨hK.recoding.child w.heap base, hK.child base hw⟩

theorem accords_bindName {s : ScopeRef} (hs : K.own s) (name : String) {v : Value}
    (hv : K.clean v) : K.Accords Anything (EvalM.bindName s name v) (EvalM.bindName s name v) :=
  accords_modifyHeap fun w hw => ⟨hK.recoding.bind w.heap s name v, hK.bind name hs hv hw⟩

theorem accords_bindAll {s : ScopeRef} (hs : K.own s) {bindings : List (String × Value)}
    (hbindings : ∀ b ∈ bindings, K.clean b.2) :
    K.Accords Anything (EvalM.modifyHeap (·.bindAll s bindings))
      (EvalM.modifyHeap (·.bindAll s bindings)) := by
  refine accords_modifyHeap fun w hw => ⟨hK.recoding.bindAll w.heap s bindings, ?_⟩
  induction bindings generalizing w with
  | nil => exact hw
  | cons b bindings ih =>
    obtain ⟨hb, hbindings⟩ := List.forall_mem_cons.mp hbindings
    exact ih hbindings _ (hK.bind b.1 hs hb hw)

theorem accords_note (text : String) : K.Accords Anything (EvalM.note text) (EvalM.note text) := by
  intro w hw
  exact ⟨rfl, hK.note text hw, trivial⟩

end

mutual

theorem thaw_holds (hK : K.Lawful) {d : Datum} (hd : d.Sound) {w : World} (hw : K.holds w) :
    K.clean (w.heap.thaw d).1 ∧ (d.hashable = true → (w.heap.thaw d).1.hashable = true) ∧
      K.holds { w with heap := (w.heap.thaw d).2 } := by
  match d, hd with
  | .atom a, _ => exact ⟨hK.atom a, fun _ => rfl, hw⟩
  | .builtin name, _ =>
    refine ⟨?_, fun _ => ?_, hw⟩
    · change K.clean (((Builtin.ofName? name).map Value.builtin).getD .null)
      cases Builtin.ofName? name with
      | none => exact hK.atom _
      | some b => exact hK.builtin b
    · change Value.hashable (((Builtin.ofName? name).map Value.builtin).getD .null) = true
      cases Builtin.ofName? name <;> rfl
  | .closure .., _ => exact ⟨hK.closure _, fun _ => rfl, hw⟩
  | .list ds, .list hds =>
    obtain ⟨hclean, -, hkeep⟩ := thawAll_holds hK hds hw
    obtain ⟨hlist, hkeep⟩ := hK.newList hclean hkeep
    refine ⟨hlist, fun h => ?_, hkeep⟩
    simp [Datum.hashable] at h
  | .tuple ds, .tuple hds =>
    obtain ⟨hclean, hhash, hkeep⟩ := thawAll_holds hK hds hw
    refine ⟨hK.tuple.mpr hclean, fun h => ?_, hkeep⟩
    rw [Datum.hashable, Datum.allHashable_iff] at h
    exact (Value.allHashable_iff _).mpr (hhash h)
  | .dict es, .dict hkey hes hes' =>
    obtain ⟨hentries, hkeep⟩ := thawEntries_holds hK hkey hes hes' hw
    refine ⟨hK.dict _, fun h => ?_, hK.newDict hentries hkeep⟩
    simp [Datum.hashable] at h
  | .set ds, .set hkey hds =>
    obtain ⟨hclean, hhash, hkeep⟩ := thawAll_holds hK hds hw
    refine ⟨hK.set _, fun h => ?_, hK.newSet ?_ hkeep⟩
    · simp [Datum.hashable] at h
    · exact fun v hv => ⟨hK.hashable (hhash hkey v hv), hclean v hv⟩

theorem thawAll_holds (hK : K.Lawful) {ds : List Datum} (hds : ∀ d ∈ ds, d.Sound) {w : World}
    (hw : K.holds w) :
    (∀ v ∈ (w.heap.thawAll ds).1, K.clean v) ∧
      ((∀ d ∈ ds, d.hashable = true) → ∀ v ∈ (w.heap.thawAll ds).1, v.hashable = true) ∧
      K.holds { w with heap := (w.heap.thawAll ds).2 } := by
  match ds with
  | [] =>
    refine ⟨?_, fun _ => ?_, hw⟩
    · rintro v ⟨⟩
    · rintro v ⟨⟩
  | d :: ds =>
    obtain ⟨hd, hds⟩ := List.forall_mem_cons.mp hds
    obtain ⟨hclean, hhash, hkeep⟩ := thaw_holds hK hd hw
    obtain ⟨hcleans, hhashes, hkeep⟩ := thawAll_holds hK hds hkeep
    refine ⟨List.forall_mem_cons.mpr ⟨hclean, hcleans⟩, fun h => ?_, hkeep⟩
    obtain ⟨h, hs⟩ := List.forall_mem_cons.mp h
    exact List.forall_mem_cons.mpr ⟨hhash h, hhashes hs⟩

theorem thawEntries_holds (hK : K.Lawful) {es : List (Datum × Datum)} (hkey : ∀ e ∈ es, e.1.hashable = true)
    (hes : ∀ e ∈ es, e.1.Sound) (hes' : ∀ e ∈ es, e.2.Sound) {w : World} (hw : K.holds w) :
    (∀ e ∈ (w.heap.thawEntries es).1, K.Entry e) ∧
      K.holds { w with heap := (w.heap.thawEntries es).2 } := by
  match es with
  | [] =>
    refine ⟨?_, hw⟩
    rintro e ⟨⟩
  | (k, v) :: es =>
    obtain ⟨hhash, hkey⟩ := List.forall_mem_cons.mp hkey
    obtain ⟨hk, hes⟩ := List.forall_mem_cons.mp hes
    obtain ⟨hv, hes'⟩ := List.forall_mem_cons.mp hes'
    obtain ⟨hkclean, hkhash, hkeep⟩ := thaw_holds hK hk hw
    obtain ⟨hvclean, -, hkeep⟩ := thaw_holds hK hv hkeep
    obtain ⟨hentries, hkeep⟩ := thawEntries_holds hK hkey hes hes' hkeep
    exact ⟨List.forall_mem_cons.mpr ⟨⟨hK.hashable (hkhash hhash), hkclean, hvclean⟩, hentries⟩,
      hkeep⟩

end

theorem accords_thaw (hK : K.Lawful) {d : Datum} (hd : d.Sound) :
    K.Accords K.clean (EvalM.thaw d) (EvalM.thaw d) :=
  accords_allocate fun w hw =>
    ⟨hK.recoding.thaw w.heap d, (thaw_holds hK hd hw).1, (thaw_holds hK hd hw).2.2⟩

/-- The calls that are active may be added to corresponding faults. -/
structure Framed (K : Contract) : Prop where
  stops : ∀ name f, K.stops f → K.stops (f.within name)
  same : ∀ name f f', K.same f f' → K.same (f.within name) (f'.within name)

theorem accords_withFrame {α β : Type} {g : α → β} {Q : α → Prop} {x : EvalM α} {y : EvalM β}
    (hframe : K.Framed) (name : String) (h : K.AccordsAs g Q x y) :
    K.AccordsAs g Q (EvalM.withFrame name x) (EvalM.withFrame name y) := by
  rw [EvalM.withFrame_eq, EvalM.withFrame_eq]
  exact h.rethrow (hframe.stops name) (hframe.same name)

end Contract

end EventTally
