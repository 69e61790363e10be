import EventTally.Proofs.Renaming.Matching
import EventTally.Proofs.Tally.Settle

/-! # Tallies in images of heaps

A tally whose scopes are renamed does the same in a heap that holds an image of its own one. It
notices nothing else there, unless one of its evaluations asks for a stored accumulator.
-/

namespace EventTally

namespace Tally

/-- Both are failures of one field, or they are the same. -/
inductive Fault.Alike : Fault → Fault → Prop
  | field (rule : String) (f : RuleField) (c c' : Cause) : Alike (.field rule f c) (.field rule f c')
  | record (r : Reason) : Alike (.record r) (.record r)
  | store (r : Reason) : Alike (.store r) (.store r)
  | crashed : Alike .crashed .crashed

/-- An evaluation asks for an accumulator that is not there. -/
def Fault.Lacks : Fault → Prop
  | .field _ _ (.evaluation e) => (EventTally.Fault.raised e).Lacks
  | _ => False

def Parsed (t : Tally) : Prop := ∀ (ρ : Renaming) (f : RuleField), ρ.code (t.code f) = t.code f

structure Fixed (ρ : Renaming) (t : Tally) : Prop where
  code : ∀ f, ρ.code (t.code f) = t.code f
  host : ρ.scope t.host = t.host

end Tally

def Pairing.benches (P : Pairing) : Link Tally.Bench Tally.Fault where
  limit b := b.world.heap.Within P.final
  rel b b' := P.Worlds b.world b'.world ∧ b'.scope = b.scope.map P.ρ.scope
  stops f := f.Lacks ∧ ∃ name, ¬ P.knows name
  faults := Tally.Fault.Alike

namespace Tally

variable {P : Pairing} {t : Tally} {g : α → β} {k : γ → δ}

theorem mirrors_reject (f : RuleField) (r r' : Reason) :
    Simulates P.benches g (t.reject f r) (t.reject f r') :=
  Simulates.throw (.field _ _ _ _)

theorem mirrors_heap_bind {f : Heap → RunM α} {f' : Heap → RunM β}
    (hbound : ∀ h, Bounded P.benches (f h))
    (hf : ∀ h h', Heap.Image P.ρ P.final P.old h h' → Simulates P.benches g (f h) (f' h')) :
    Simulates P.benches g (heap >>= f) (heap >>= f') :=
  Simulates.get_bind (L := P.benches) (fun b => hbound b.world.heap) fun b b' hrel =>
    hf b.world.heap b'.world.heap hrel.1.image

theorem mirrors_read {m : γ → δ} {p : Heap → γ} {q : Heap → δ} {f : γ → RunM α} {f' : δ → RunM β}
    (hp : ∀ h h', Heap.Image P.ρ P.final P.old h h' → q h' = m (p h))
    (hf : ∀ c, Simulates P.benches g (f c) (f' (m c))) :
    Simulates P.benches g (heap >>= fun h => f (p h)) (heap >>= fun h => f' (q h)) := by
  refine mirrors_heap_bind (fun h => (hf (p h)).bounded) fun h h' himage => ?_
  rw [hp h h' himage]
  exact hf (p h)

theorem mirrors_allocate {make : Heap → α × Heap} {make' : Heap → β × Heap}
    (hmake : Heap.Makes P.ρ P.final P.old g make make') :
    Simulates P.benches g (allocate make) (allocate make') := by
  intro b hlimit
  obtain ⟨hbefore, hmade⟩ := hmake b.world.heap hlimit
  refine ⟨hbefore, fun b' hrel => .inr ?_⟩
  obtain ⟨himage, hresult⟩ := hmade b'.world.heap hrel.1.image
  exact ⟨⟨⟨himage, hrel.1.stores, hrel.1.noted⟩, hrel.2⟩, hresult⟩

theorem faultIn_alike {κ : Nat → Nat} (t : Tally) (f : RuleField) {e e' : EventTally.Fault}
    (h : e.Alike κ e') : (t.faultIn f e).Alike (t.faultIn f e') := by
  cases h with
  | raised h trace => exact .field _ _ _ _
  | crashed => exact .crashed
  | exhausted => exact .crashed

theorem faultIn_lacks {t : Tally} {f : RuleField} {e : EventTally.Fault} (h : e.Lacks) :
    (t.faultIn f e).Lacks := by
  cases e with
  | raised e => exact h
  | crashed => cases h
  | exhausted => cases h

theorem mirrors_evaluating (f : RuleField) {x : EvalM α} {y : EvalM β} (hxy : P.Mirrors g x y) :
    Simulates P.benches g (t.evaluating f x) (t.evaluating f y) := by
  intro b hlimit
  have hfirst := hxy b.world
  rw [run_evaluating] at hlimit ⊢
  rcases hrun : x.run b.world with ⟨e | a, w⟩
  · rw [hrun] at hlimit hfirst
    obtain ⟨hbefore, hfirst⟩ := hfirst hlimit
    refine ⟨hbefore, fun b' hrel => ?_⟩
    rw [run_evaluating]
    obtain ⟨_, ⟨⟩, hlacks, hname⟩ | ⟨hrel', hmatch⟩ := hfirst b'.world hrel.1
    · exact .inl ⟨_, rfl, faultIn_lacks hlacks, hname⟩
    · rcases hrun' : y.run b'.world with ⟨e' | a', w'⟩
      · rw [hrun'] at hrel' hmatch
        exact .inr ⟨⟨hrel', hrel.2⟩, t.faultIn_alike f hmatch⟩
      · rw [hrun'] at hmatch
        cases hmatch
  · rw [hrun] at hlimit hfirst
    obtain ⟨hbefore, hfirst⟩ := hfirst hlimit
    refine ⟨hbefore, fun b' hrel => ?_⟩
    rw [run_evaluating]
    obtain ⟨_, ⟨⟩, -⟩ | ⟨hrel', hmatch⟩ := hfirst b'.world hrel.1
    rcases hrun' : y.run b'.world with ⟨e' | a', w'⟩
    · rw [hrun'] at hmatch
      cases hmatch
    · rw [hrun'] at hrel' hmatch
      exact .inr ⟨⟨hrel', hrel.2⟩, hmatch⟩

def accumulatorFrom (t : Tally) : Except Reason Datum → RunM Value
  | .ok d => allocate (·.thaw d)
  | .error .noSuchTally => t.initial
  | .error r => throw (.store r)

/-- The result of an event as data, from what the store says of the accumulator. -/
def attemptFrom (t : Tally) (ev : Event) (stored : Except Reason Datum) : RunM Datum := do
  let acc ← t.accumulatorFrom stored
  let v ← t.handle acc ev
  match t.dataOf (← heap) v with
  | .ok d => return d
  | .error f => throw f

theorem run_attempt_eq (t : Tally) (ev : Event) (b : Bench) :
    (t.attempt ev).run b = (t.attemptFrom ev (b.world.store.tally t.name)).run b := by
  rw [attempt, run_bind, run_accumulator, attemptFrom, run_bind]
  rfl

theorem isNull_value (ρ : Renaming) (v : Value) : isNull (ρ.value v) = isNull v := by
  cases v <;> rfl

section

variable (ht : t.Fixed P.ρ)
include ht

theorem mirrors_code (f : RuleField) (s : ScopeRef) :
    P.Mirrors P.ρ.value (EvalM.eval (t.code f) s) (EvalM.eval (t.code f) (P.ρ.scope s)) := by
  have heval := (EvalM.mirrored_recursor P EvalM.ampleFuel).eval (t.code f) s
  rwa [ht.code] at heval

theorem mirrors_baseScope : Simulates P.benches P.ρ.scope t.baseScope t.baseScope := by
  have hscope := EvalM.mirrors_newScope (P := P) t.host
  rw [ht.host] at hscope
  have hmake : Simulates P.benches P.ρ.scope
      (do
        let s ← t.evaluating .base do
          let s ← EvalM.newScope t.host
          let _ ← EvalM.eval (t.code .base) s
          return s
        modify fun b => { b with scope := some s }
        return s : RunM ScopeRef)
      (do
        let s ← t.evaluating .base do
          let s ← EvalM.newScope t.host
          let _ ← EvalM.eval (t.code .base) s
          return s
        modify fun b => { b with scope := some s }
        return s) := by
    refine (mirrors_evaluating _ (g := P.ρ.scope) (hscope.bind fun s => ?_)).bind fun s => ?_
    · exact (mirrors_code ht .base s).bind fun _ => EvalM.mirrors_pure s
    · exact fun b hlimit => ⟨hlimit, fun b' hrel => .inr ⟨⟨hrel.1, rfl⟩, rfl⟩⟩
  refine Simulates.get_bind (fun b => ?_) fun b b' hrel => ?_
  · split
    · exact fun _ hlimit => hlimit
    · exact hmake.bounded
  · rw [hrel.2]
    cases b.scope with
    | some s => exact Simulates.pure rfl
    | none => exact hmake

theorem mirrors_run (f : RuleField) (bindings : List (String × Value)) :
    Simulates P.benches P.ρ.value (t.run f bindings) (t.run f (bindings.map P.ρ.binding)) := by
  refine (mirrors_baseScope ht).bind fun base => mirrors_evaluating f ?_
  refine (EvalM.mirrors_newScope base).bind fun s => ?_
  exact (EvalM.mirrors_bindAll s bindings).bind fun _ => mirrors_code ht f s

theorem mirrors_initialOfGroup :
    Simulates P.benches P.ρ.value t.initialOfGroup t.initialOfGroup :=
  mirrors_run ht .getTally []

theorem mirrors_initial : Simulates P.benches P.ρ.value t.initial t.initial := by
  unfold initial
  split
  · exact (mirrors_allocate (Heap.makes_newDict [])).map fun _ => rfl
  · exact mirrors_initialOfGroup ht

theorem mirrors_value (record : Value) :
    Simulates P.benches P.ρ.value (t.value record) (t.value (P.ρ.value record)) :=
  mirrors_run ht .getValue [("instance", record)]

theorem mirrors_filter (v : Value) :
    Simulates P.benches id (t.filter v) (t.filter (P.ρ.value v)) := by
  refine (mirrors_run ht .filterValue [("value", v)]).bind fun result => ?_
  exact mirrors_read (m := id) (fun h h' himage => himage.truthy result) fun c => Simulates.pure rfl

theorem mirrors_change (acc old new : Value) :
    Simulates P.benches P.ρ.value (t.change acc old new)
      (t.change (P.ρ.value acc) (P.ρ.value old) (P.ρ.value new)) :=
  mirrors_run ht .handleChange [("tally", acc), ("old_value", old), ("new_value", new)]

theorem mirrors_group (v : Value) :
    Simulates P.benches P.ρ.value (t.group v) (t.group (P.ρ.value v)) := by
  have hrun (v : Value) := mirrors_run ht .getGroup [("value", v)]
  cases v with
  | atom a =>
    cases a with
    | null => exact Simulates.pure rfl
    | _ => exact hrun (.atom _)
  | tuple vs =>
    rw [Renaming.value_tuple]
    have h := hrun (.tuple vs)
    rw [List.map_cons, Renaming.binding, Renaming.value_tuple] at h
    exact h
  | _ => exact hrun _

theorem mirrors_filteredValue (model : String) (fields : Option Fields) :
    Simulates P.benches P.ρ.value (t.filteredValue model fields) (t.filteredValue model fields) := by
  cases fields with
  | none => exact Simulates.pure rfl
  | some fs =>
    unfold filteredValue
    dsimp only
    split
    · next r _ => exact Simulates.throw (.record r)
    · next d hd =>
      have hinert := Event.of_record Codec.plainClosed_inert hd
      refine (mirrors_allocate (Heap.makes_thaw hinert)).bind fun record => ?_
      refine (mirrors_value ht record).bind fun v => ?_
      rw [isNull_value]
      split
      · exact Simulates.pure rfl
      · refine (mirrors_filter ht v).bind fun pass => Simulates.pure ?_
        cases pass <;> rfl

theorem mirrors_changeFound (key old new : Value) (groups : List (Value × Value)) (acc : Value) :
    Simulates P.benches (List.map P.ρ.entry)
      (do
        let acc ← t.change acc old new
        match (← heap).insertEntry key acc groups with
        | .ok groups => return groups
        | .error r => t.reject .getGroup r)
      (do
        let acc ← t.change (P.ρ.value acc) (P.ρ.value old) (P.ρ.value new)
        match (← heap).insertEntry (P.ρ.value key) acc (groups.map P.ρ.entry) with
        | .ok groups => return groups
        | .error r => t.reject .getGroup r) := by
  refine (mirrors_change ht acc old new).bind fun acc => ?_
  refine mirrors_heap_bind (fun h => ?_) fun h h' himage => ?_
  · split <;> exact fun _ hlimit => hlimit
  · have hinsert := himage.insertEntry (m := P.ρ.entry) (fun _ => rfl) key acc groups
    rw [Renaming.entry] at hinsert
    rw [hinsert]
    cases h.insertEntry key acc groups with
    | ok groups => exact Simulates.pure rfl
    | error r => exact mirrors_reject _ r r

theorem mirrors_changeGroup (key old new : Value) (groups : List (Value × Value)) :
    Simulates P.benches (List.map P.ρ.entry) (t.changeGroup key old new groups)
      (t.changeGroup (P.ρ.value key) (P.ρ.value old) (P.ρ.value new) (groups.map P.ρ.entry)) := by
  have hfound := mirrors_changeFound ht key old new groups
  have hinitial := mirrors_initialOfGroup ht
  refine mirrors_heap_bind (fun h => ?_) fun h h' himage => ?_
  · split
    · exact (hfound _).bounded
    · exact hinitial.bounded.bind fun acc => (hfound acc).bounded
  · rw [himage.findEntry]
    cases h.findEntry groups key with
    | some acc => exact hfound acc
    | none => exact hinitial.bind hfound

theorem mirrors_changeNonNull (g old new : Value) (groups : List (Value × Value)) :
    Simulates P.benches (List.map P.ρ.entry) (t.changeNonNull g old new groups)
      (t.changeNonNull (P.ρ.value g) (P.ρ.value old) (P.ρ.value new) (groups.map P.ρ.entry)) := by
  unfold changeNonNull
  rw [isNull_value]
  split
  · exact Simulates.pure rfl
  · exact mirrors_changeGroup ht g old new groups

theorem mirrors_changeGroups (old new : Value) (groups : List (Value × Value)) :
    Simulates P.benches (List.map P.ρ.entry) (t.changeGroups old new groups)
      (t.changeGroups (P.ρ.value old) (P.ρ.value new) (groups.map P.ρ.entry)) := by
  refine (mirrors_group ht old).bind fun oldGroup => ?_
  refine (mirrors_group ht new).bind fun newGroup => ?_
  have hwithin := mirrors_changeNonNull ht newGroup old new groups
  have hbetween := (mirrors_changeNonNull ht oldGroup old .null groups).bind fun groups =>
    mirrors_changeNonNull ht newGroup .null new groups
  refine mirrors_heap_bind (fun h => ?_) fun h h' himage => ?_
  · split
    · exact hwithin.bounded
    · exact hbetween.bounded
    · exact fun _ hlimit => hlimit
  · rw [himage.equal?]
    split
    · exact hwithin
    · exact hbetween
    · exact Simulates.throw .crashed

theorem mirrors_changeGrouped (acc old new : Value) :
    Simulates P.benches P.ρ.value (t.changeGrouped acc old new)
      (t.changeGrouped (P.ρ.value acc) (P.ρ.value old) (P.ρ.value new)) := by
  cases acc with
  | dict r =>
    have hgroups (groups : List (Value × Value)) : Simulates P.benches P.ρ.value
        (do
          let groups ← t.changeGroups old new groups
          return .dict (← allocate (·.newDict groups)))
        (do
          let groups ← t.changeGroups (P.ρ.value old) (P.ρ.value new) (groups.map P.ρ.entry)
          return .dict (← allocate (·.newDict groups))) :=
      (mirrors_changeGroups ht old new groups).bind fun groups =>
        (mirrors_allocate (Heap.makes_newDict groups)).map fun _ => rfl
    refine mirrors_heap_bind (fun h => (hgroups _).bounded) fun h h' himage => ?_
    rw [himage.entries]
    exact hgroups (h.entries r)
  | _ => exact mirrors_reject _ _ _

theorem mirrors_handle (acc : Value) (ev : Event) :
    Simulates P.benches P.ρ.value (t.handle acc ev) (t.handle (P.ρ.value acc) ev) := by
  refine (mirrors_filteredValue ht ev.model ev.old).bind fun old => ?_
  refine (mirrors_filteredValue ht ev.model ev.new).bind fun new => ?_
  rw [isNull_value, isNull_value]
  split
  · exact Simulates.pure rfl
  · split
    · exact mirrors_changeGrouped ht acc old new
    · exact mirrors_change ht acc old new

theorem mirrors_accumulatorFrom {stored : Except Reason Datum}
    (hstored : ∀ d, stored = .ok d → d.Inert) :
    Simulates P.benches P.ρ.value (t.accumulatorFrom stored) (t.accumulatorFrom stored) := by
  unfold accumulatorFrom
  split
  · next d => exact mirrors_allocate (Heap.makes_thaw (hstored d rfl))
  · exact mirrors_initial ht
  · exact Simulates.throw (.store _)

theorem mirrors_attemptFrom (ev : Event) {stored : Except Reason Datum}
    (hstored : ∀ d, stored = .ok d → d.Inert) :
    Simulates P.benches (Datum.rename P.ρ.closures) (t.attemptFrom ev stored)
      (t.attemptFrom ev stored) := by
  refine (mirrors_accumulatorFrom ht hstored).bind fun acc => ?_
  refine (mirrors_handle ht acc ev).bind fun v => ?_
  refine mirrors_heap_bind (fun h => ?_) fun h h' himage => ?_
  · split <;> exact fun _ hlimit => hlimit
  · unfold dataOf
    rw [himage.encode?, himage.datum]
    rcases h.encode? v with _ | r | j
    · exact Simulates.throw .crashed
    · exact Simulates.throw (.field _ _ _ _)
    · exact Simulates.pure rfl

end

end Tally

end EventTally
