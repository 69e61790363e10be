import EventTally.Proofs.Eval.Preservation
import EventTally.Proofs.Renaming.Evaluation

/-! # Calls and evaluation in images of heaps

The builtins that change the heap, matching, and evaluation itself.
-/

namespace EventTally

theorem Store.inert_of_tally {s : Store} {name : String} {d : Datum} (h : s.tally name = .ok d) :
    d.Inert := by
  unfold Store.tally at h
  split at h
  · cases h
  · exact Codec.closed_inert.of_unmarshal h

namespace EvalM

variable {P : Pairing}

theorem mirrors_callIsDefined (args : List Code) (s : ScopeRef) :
    P.Mirrors P.ρ.value (callIsDefined args s) (callIsDefined (args.map P.ρ.code) (P.ρ.scope s)) := by
  refine (mirrors_symbolNames args).bind fun names => ?_
  refine mirrors_heap_map fun h h' himage => ?_
  simp only [id, himage.lookup, Option.isSome_map]
  rfl

theorem mirrors_removeNames (s : ScopeRef) (last : Value) (names : List String) :
    P.Mirrors P.ρ.value (removeNames s last names)
      (removeNames (P.ρ.scope s) (P.ρ.value last) names) := by
  induction names generalizing last with
  | nil => exact mirrors_pure last
  | cons name names ih =>
    have hvalue (h h' : Heap) (himage : Heap.Image P.ρ P.final P.old h h') :
        (h'.lookup (P.ρ.scope s) name).getD .null = P.ρ.value ((h.lookup s name).getD .null) := by
      rw [himage.lookup]
      cases h.lookup s name <;> rfl
    have hrest (v : Value) : P.Mirrors P.ρ.value
        (do
          modifyHeap (·.unbind s name)
          removeNames s v names)
        (do
          modifyHeap (·.unbind (P.ρ.scope s) name)
          removeNames (P.ρ.scope s) (P.ρ.value v) names) := by
      refine (mirrors_modifyHeap (fun _ hwithin => hwithin.of_unbind) fun _ _ himage =>
        himage.unbind s name).bind fun _ => ih v
    refine mirrors_heap_bind (fun h => (hrest _).bounded) fun h h' himage => ?_
    dsimp only
    rw [hvalue h h' himage]
    exact hrest _

theorem mirrors_makeClosure (pattern body : Code) (s : ScopeRef) (name : String) :
    P.Mirrors P.ρ.value (makeClosure pattern body s name)
      (makeClosure (P.ρ.code pattern) (P.ρ.code body) (P.ρ.scope s) name) := by
  refine (mirrors_allocate (Heap.makes_newClosure { pattern, body, scope := s, name })).bind
    fun ref => ?_
  have hbind := mirrors_bindName (P := P) s name (.closure ref)
  dsimp only
  split
  · exact hbind.bind fun _ => mirrors_pure (Value.closure ref)
  · exact mirrors_pure (Value.closure ref)

theorem mirrors_callFunction (args : List Code) (s : ScopeRef) :
    P.Mirrors P.ρ.value (callFunction args s) (callFunction (args.map P.ρ.code) (P.ρ.scope s)) := by
  refine (mirrors_checkArity args _ _).bind fun _ => ?_
  refine (mirrors_resolveAll args).bind fun args => ?_
  cases args with
  | nil => exact mirrors_pure Value.null
  | cons pattern body =>
    refine (mirrors_checkPattern pattern).bind fun _ => ?_
    rw [code_bodyOf]
    exact mirrors_makeClosure pattern (bodyOf body) s ""

theorem mirrors_callDefineFunction (args : List Code) (s : ScopeRef) :
    P.Mirrors P.ρ.value (callDefineFunction args s)
      (callDefineFunction (args.map P.ρ.code) (P.ρ.scope s)) := by
  refine (mirrors_checkArity args _ _).bind fun _ => ?_
  refine (mirrors_resolveAll args).bind fun args => ?_
  rcases args with _ | ⟨name, _ | ⟨pattern, body⟩⟩
  · exact mirrors_pure Value.null
  · exact mirrors_pure Value.null
  · refine (mirrors_symbolOf? name).bind fun found => ?_
    cases found with
    | none => exact (mirrors_codeKind name).bind fun kind => mirrors_fail _
    | some x =>
      refine (mirrors_checkPattern pattern).bind fun _ => ?_
      rw [code_bodyOf]
      exact mirrors_makeClosure pattern (bodyOf body) s x

theorem mirrors_callGetTally (args : List Code) :
    P.Mirrors P.ρ.value (callGetTally args) (callGetTally (args.map P.ρ.code)) := by
  refine (mirrors_checkArity args _ _).bind fun _ => ?_
  cases args with
  | nil => exact mirrors_pure Value.null
  | cons c rest =>
    refine (mirrors_symbolOf? c).bind fun found => ?_
    cases found with
    | none => exact (mirrors_codeKind c).bind fun kind => mirrors_fail _
    | some name =>
      have hthaw (x : Except Reason Datum) (hx : ∀ d, x = .ok d → d.Inert) :
          P.Mirrors P.ρ.value (ofExcept x >>= thaw) (ofExcept x >>= thaw) := by
        cases x with
        | error r => exact mirrors_fail r
        | ok d => exact mirrors_thaw (hx d rfl)
      have hinert (s : Store) : ∀ d, s.tally name = .ok d → d.Inert := fun d hd =>
        Store.inert_of_tally hd
      refine Simulates.get_bind (fun w => (hthaw _ (hinert w.store)).bounded) fun w w' hrel => ?_
      by_cases hknown : P.knows name
      · have htally : w'.store.tally name = w.store.tally name := by
          rw [Store.tally, Store.tally, hrel.stores.known name hknown]
        rw [htally]
        exact hthaw _ (hinert w.store)
      · have htally : w.store.tally name = .error .noSuchTally := by
          rw [Store.tally, hrel.stores.others name hknown]
        rw [htally]
        exact fun _ hlimit => ⟨hlimit, fun _ _ => .inl ⟨_, rfl, rfl, name, hknown⟩⟩

section

variable {r : Recursor} (hr : r.Mirrored P) (s : ScopeRef)
include hr

theorem mirrors_quoteForm (c : Code) :
    P.Mirrors P.ρ.value (quoteStep.quoteForm r s c)
      (quoteStep.quoteForm r (P.ρ.scope s) (P.ρ.code c)) := by
  refine (mirrors_formOf? c).bind fun form => ?_
  have hform : (form.map (List.map P.ρ.code)).getD [] = (form.getD []).map P.ρ.code := by
    cases form <;> rfl
  dsimp only
  rw [hform]
  refine (mirrors_headOf? (form.getD [])).bind fun head => ?_
  dsimp only [id]
  split
  · rw [List.length_map]
    rcases form.getD [] with _ | ⟨c, _ | ⟨d, _ | ⟨e, rest⟩⟩⟩
    · exact mirrors_fail _
    · exact mirrors_fail _
    · exact hr.eval d s
    · exact mirrors_fail _
  · exact (mirrors_quoteAll hr s _).bind fun vs => mirrors_newList vs

theorem mirrors_quoteStep (c : Code) :
    P.Mirrors P.ρ.value (quoteStep r c s) (quoteStep r (P.ρ.code c) (P.ρ.scope s)) := by
  refine (mirrors_resolve c).bind fun c => ?_
  cases c with
  | value v =>
    cases v with
    | list ref => exact mirrors_quoteForm hr s (.value (.list ref))
    | tuple vs => exact mirrors_pure (Value.tuple vs)
    | atom a => exact mirrors_pure (Value.atom a)
    | dict ref => exact mirrors_pure (Value.dict ref)
    | set ref => exact mirrors_pure (Value.set ref)
    | builtin b => exact mirrors_pure (Value.builtin b)
    | closure ref => exact mirrors_pure (Value.closure ref)
  | form cs => exact mirrors_quoteForm hr s (.form cs)
  | slot ref i => exact mirrors_quoteForm hr s (.slot ref i)

theorem mirrors_evalEntries (acc : List (Value × Value)) (cs : List Code) :
    P.Mirrors P.ρ.value (evalEntries r s acc cs)
      (evalEntries r (P.ρ.scope s) (acc.map P.ρ.entry) (cs.map P.ρ.code)) := by
  fun_induction evalEntries r s acc cs with
  | case1 acc k v rest ih =>
    refine (hr.eval k s).bind fun key => ?_
    refine (hr.eval v s).bind fun value => ?_
    refine mirrors_attempt (fun h h' himage => Parallel.of_eq ?_) fun acc' => ih acc'
    exact himage.insertEntry (m := P.ρ.entry) (fun _ => rfl) key value acc
  | case2 cs acc hshort =>
    rcases cs with _ | ⟨c, _ | ⟨d, cs⟩⟩
    · exact mirrors_newDict acc
    · exact mirrors_newDict acc
    · exact absurd rfl (hshort c d cs)

theorem mirrors_callDict (args : List Code) :
    P.Mirrors P.ρ.value (callDict r args s) (callDict r (args.map P.ρ.code) (P.ρ.scope s)) := by
  unfold callDict
  rw [List.length_map]
  split
  · exact mirrors_fail _
  · exact mirrors_evalEntries hr s [] args

theorem mirrors_callPut (args : List Code) :
    P.Mirrors P.ρ.value (callPut r args s) (callPut r (args.map P.ρ.code) (P.ρ.scope s)) := by
  refine (mirrors_checkArity args _ _).bind fun _ => ?_
  refine (mirrors_resolveAll args).bind fun args => ?_
  rcases args with _ | ⟨c, _ | ⟨k, _ | ⟨v, _ | ⟨x, rest⟩⟩⟩⟩
  · exact mirrors_pure Value.null
  · exact mirrors_pure Value.null
  · exact mirrors_pure Value.null
  · refine (hr.eval v s).bind fun value => ?_
    refine (hr.eval c s).bind fun col => ?_
    refine (hr.eval k s).bind fun key => ?_
    refine mirrors_replaceHeap (R := fun _ _ => True) (fun h h' hput => Heap.put_within hput)
      (fun h h' himage => ?_) (fun _ _ hlimit => hlimit)
      fun _ _ _ => mirrors_pure value
    exact (himage.put col key value).mono fun _ _ hput => ⟨trivial, hput⟩
  · exact mirrors_pure Value.null

theorem mirrors_removeKeys (col last : Value) (cs : List Code) :
    P.Mirrors P.ρ.value (removeKeys r s col last cs)
      (removeKeys r (P.ρ.scope s) (P.ρ.value col) (P.ρ.value last) (cs.map P.ρ.code)) := by
  induction cs generalizing last with
  | nil => exact mirrors_pure last
  | cons c cs ih =>
    refine (hr.eval c s).bind fun key => ?_
    refine mirrors_replaceHeap (R := fun a b => b.1 = P.ρ.value a.1)
      (fun h removed hremove => Heap.remove_within hremove) (fun h h' himage => himage.remove col key)
      (fun removed => (ih removed.1).bounded) fun a b hab => ?_
    obtain ⟨v, h⟩ := b
    cases hab
    exact ih a.1

theorem mirrors_callDel (args : List Code) :
    P.Mirrors P.ρ.value (callDel r args s) (callDel r (args.map P.ρ.code) (P.ρ.scope s)) := by
  refine (mirrors_checkArity args _ _).bind fun _ => ?_
  cases args with
  | nil => exact mirrors_pure Value.null
  | cons c ks => exact (hr.eval c s).bind fun col => mirrors_removeKeys hr s col .null ks

theorem mirrors_callProbe (last : Value) (cs : List Code) :
    P.Mirrors P.ρ.value (callProbe r s last cs)
      (callProbe r (P.ρ.scope s) (P.ρ.value last) (cs.map P.ρ.code)) := by
  induction cs generalizing last with
  | nil => exact mirrors_pure last
  | cons c cs ih =>
    refine (hr.eval c s).bind fun v => ?_
    refine (mirrors_datum v).bind fun d => ?_
    rw [Datum.plain_rename]
    exact (mirrors_note d.plain).bind fun _ => ih v

end

end EvalM

end EventTally
