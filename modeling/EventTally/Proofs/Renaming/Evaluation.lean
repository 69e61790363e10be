import EventTally.Proofs.Renaming.Comparison
import EventTally.Proofs.Renaming.Simulation

/-! # Evaluation in images of heaps

One lemma for each part of the evaluator, in the order of their definitions: if evaluation, matching
and quoting with the fuel that is left do the same in an image of the heap, so does the part. The
induction on the fuel closes the circle. So an evaluation sees nothing of the rest of the heap.
-/

namespace EventTally

/-- Evaluation, matching and quoting do the same in images. -/
structure Recursor.Mirrored (r : Recursor) (P : Pairing) : Prop where
  eval : ∀ c s, P.Mirrors P.ρ.value (r.eval c s) (r.eval (P.ρ.code c) (P.ρ.scope s))
  bind : ∀ pattern place s, P.Mirrors id (r.bind pattern place s)
    (r.bind (P.ρ.code pattern) (P.ρ.place place) (P.ρ.scope s))
  quote : ∀ c s, P.Mirrors P.ρ.value (r.quote c s) (r.quote (P.ρ.code c) (P.ρ.scope s))

namespace EvalM

variable {P : Pairing}

theorem mirrors_resolve (c : Code) : P.Mirrors P.ρ.code (resolve c) (resolve (P.ρ.code c)) := by
  cases c with
  | value v => exact mirrors_pure _
  | form cs => exact mirrors_pure (Code.form cs)
  | slot r i =>
    refine mirrors_heap_map fun h h' himage => ?_
    rw [himage.slot, Renaming.code]

theorem mirrors_resolveAll (cs : List Code) :
    P.Mirrors (List.map P.ρ.code) (resolveAll cs) (resolveAll (cs.map P.ρ.code)) := by
  induction cs with
  | nil => exact mirrors_pure []
  | cons c cs ih =>
    refine (mirrors_resolve c).bind fun c => ?_
    exact ih.map fun _ => rfl

theorem mirrors_formOf? (c : Code) :
    P.Mirrors (Option.map (List.map P.ρ.code)) (formOf? c) (formOf? (P.ρ.code c)) := by
  refine (mirrors_resolve c).bind fun c => ?_
  cases c with
  | value v =>
    cases v with
    | list r =>
      refine mirrors_heap_map fun h h' himage => ?_
      rw [himage.slots, Option.map_some]
    | _ => exact mirrors_pure none
  | form cs =>
    rw [Renaming.code_form]
    exact mirrors_pure (some cs)
  | slot r i => exact mirrors_pure none

theorem mirrors_symbolOf? (c : Code) : P.Mirrors id (symbolOf? c) (symbolOf? (P.ρ.code c)) := by
  refine (mirrors_resolve c).bind fun c => ?_
  cases c with
  | value v =>
    cases v with
    | atom a => cases a <;> exact mirrors_same _
    | _ => exact mirrors_same _
  | _ => exact mirrors_same _

theorem mirrors_headOf? (cs : List Code) : P.Mirrors id (headOf? cs) (headOf? (cs.map P.ρ.code)) := by
  cases cs with
  | nil => exact mirrors_same _
  | cons c cs => exact mirrors_symbolOf? c

theorem mirrors_taggedForm? (tag : String) (c : Code) :
    P.Mirrors (Option.map (List.map P.ρ.code)) (taggedForm? tag c) (taggedForm? tag (P.ρ.code c)) := by
  refine (mirrors_formOf? c).bind fun form => ?_
  cases form with
  | none => exact mirrors_pure none
  | some cs =>
    refine (mirrors_headOf? cs).bind fun head => ?_
    refine Simulates.pure ?_
    rw [← List.map_drop]
    dsimp only [id]
    split <;> rfl

theorem mirrors_checkArity (args : List Code) (low high : Int) :
    P.Mirrors id (checkArity args low high) (checkArity (args.map P.ρ.code) low high) := by
  unfold checkArity
  rw [List.length_map]
  dsimp only
  split
  · exact mirrors_fail _
  · exact mirrors_same _

theorem mirrors_codeKind (c : Code) : P.Mirrors id (codeKind c) (codeKind (P.ρ.code c)) := by
  refine (mirrors_resolve c).bind fun c => ?_
  cases c with
  | value v =>
    refine Simulates.pure ?_
    exact Renaming.kind_value v
  | _ => exact mirrors_same _

theorem mirrors_symbolNames (cs : List Code) :
    P.Mirrors id (symbolNames cs) (symbolNames (cs.map P.ρ.code)) := by
  induction cs with
  | nil => exact mirrors_same []
  | cons c cs ih =>
    refine (mirrors_symbolOf? c).bind fun name => ?_
    cases name with
    | some name => exact ih.map fun _ => rfl
    | none => exact (mirrors_codeKind c).bind fun kind => mirrors_fail _

theorem mirrors_codeDatum_fail {α β : Type} {g : α → β} (c : Code) (r : String → Reason) :
    P.Mirrors g (do fail (r (← codeDatum c).plain)) (do fail (r (← codeDatum (P.ρ.code c)).plain)) := by
  refine (mirrors_codeDatum c).bind fun d => ?_
  rw [Datum.plain_rename]
  exact mirrors_fail _

theorem mirrors_checkPattern (pattern : Code) :
    P.Mirrors id (checkPattern pattern) (checkPattern (P.ρ.code pattern)) := by
  have htest (head : Option String) : P.Mirrors id
      (if head = some "list" || head = some "into_list" then pure ()
      else do
        fail (.badValue "argument pattern" "list or list with spread"
          (← codeDatum pattern).plain))
      (if head = some "list" || head = some "into_list" then pure ()
      else do
        fail (.badValue "argument pattern" "list or list with spread"
          (← codeDatum (P.ρ.code pattern)).plain)) := by
    split
    · exact mirrors_same ()
    · exact mirrors_codeDatum_fail _ _
  refine (mirrors_formOf? pattern).bind fun form => ?_
  cases form with
  | none =>
    refine (mirrors_same (P := P) (none : Option String)).bind fun head => ?_
    dsimp only [id]
    exact htest head
  | some cs =>
    refine (mirrors_headOf? cs).bind fun head => ?_
    dsimp only [id]
    exact htest head

theorem mirrors_threadForms (c : Code) (forms : List Code) :
    P.Mirrors P.ρ.code (threadForms c forms) (threadForms (P.ρ.code c) (forms.map P.ρ.code)) := by
  induction forms generalizing c with
  | nil => exact mirrors_pure c
  | cons form forms ih =>
    refine (mirrors_formOf? form).bind fun elems => ?_
    rcases elems with _ | _ | ⟨head, rest⟩
    · exact mirrors_codeDatum_fail _ _
    · exact mirrors_codeDatum_fail _ _
    · refine (mirrors_resolve head).bind fun head => ?_
      refine (mirrors_resolveAll rest).bind fun rest => ?_
      have hform := ih (.form (head :: c :: rest))
      rwa [Renaming.code_form] at hform

theorem mirrors_collect (vs : List Value) :
    P.Mirrors (List.map P.ρ.value) (collect vs) (collect (vs.map P.ρ.value)) := by
  induction vs with
  | nil => exact mirrors_pure []
  | cons v vs ih =>
    refine mirrors_attempt (fun _ _ himage => Parallel.of_eq (himage.iterate v)) fun elems => ?_
    exact ih.map fun rest => (List.map_append).symm

theorem mirrors_makeSet (elems : List Value) :
    P.Mirrors P.ρ.value (makeSet elems) (makeSet (elems.map P.ρ.value)) :=
  mirrors_attempt (fun _ _ himage => Parallel.of_eq (himage.insertMembers elems []))
    fun vs => mirrors_newSet vs

theorem mirrors_pairOf (v : Value) : P.Mirrors P.ρ.entry (pairOf v) (pairOf (P.ρ.value v)) := by
  have hfail : P.Mirrors P.ρ.entry
      (do fail (.badValue "element of dict" "key-value pair" (← datum v).plain))
      (do fail (.badValue "element of dict" "key-value pair" (← datum (P.ρ.value v)).plain)) :=
    mirrors_datum_fail v (.badValue "element of dict" "key-value pair")
  refine mirrors_heap_bind (fun h => ?_) fun h h' himage => ?_
  · rcases h.iterate v with e | _ | ⟨k, _ | ⟨w, _ | ⟨u, vs⟩⟩⟩
    · exact hfail.bounded
    · exact hfail.bounded
    · exact hfail.bounded
    · exact fun _ hlimit => hlimit
    · exact hfail.bounded
  · rw [himage.iterate]
    rcases h.iterate v with e | _ | ⟨k, _ | ⟨w, _ | ⟨u, vs⟩⟩⟩
    · exact hfail
    · exact hfail
    · exact hfail
    · exact mirrors_pure (k, w)
    · exact hfail

theorem mirrors_makeDict_collect (elems : List Value) (acc : List (Value × Value)) :
    P.Mirrors P.ρ.value (makeDict.collect acc elems)
      (makeDict.collect (acc.map P.ρ.entry) (elems.map P.ρ.value)) := by
  induction elems generalizing acc with
  | nil => exact mirrors_newDict acc
  | cons v vs ih =>
    refine (mirrors_pairOf v).bind fun pair => ?_
    refine mirrors_attempt (fun h h' himage => Parallel.of_eq ?_) fun acc => ih acc
    exact himage.insertEntry (m := P.ρ.entry) (fun _ => rfl) pair.1 pair.2 acc

theorem mirrors_totalLength (vs : List Value) :
    P.Mirrors P.ρ.value (totalLength vs) (totalLength (vs.map P.ρ.value)) := by
  refine mirrors_attempt (m := id) (fun h h' himage => Parallel.of_eq ?_) fun total =>
    mirrors_pure (Value.int total)
  rw [List.foldlM_map]
  simp only [himage.len?, Renaming.kind_value]
  rw [Except.map_id]
  rfl

theorem mirrors_concat (vs : List Value) :
    P.Mirrors id (concat vs) (concat (vs.map P.ρ.value)) := by
  refine mirrors_examine (m := List.map (Datum.rename P.ρ.closures)) (fun h h' himage => ?_)
    fun ds => ?_
  · rw [himage.mapM_datum?]
  · rw [List.map_map, show Datum.display ∘ Datum.rename P.ρ.closures = Datum.display from
      funext Datum.display_rename]
    exact mirrors_same _

theorem mirrors_checkBounds (i : Nat) (vs : List Value) :
    P.Mirrors id (checkBounds i vs) (checkBounds i (vs.map P.ρ.value)) := by
  induction vs generalizing i with
  | nil => exact mirrors_same ()
  | cons v vs ih =>
    cases v with
    | atom a =>
      cases a with
      | int n => exact ih (i + 1)
      | null => exact ih (i + 1)
      | _ => exact mirrors_fail _
    | _ => exact mirrors_fail _

theorem mirrors_select (n : Nat) (start stop step : Value) :
    P.Mirrors id (slice.liftExcept (Slice.select n start stop step))
      (slice.liftExcept (Slice.select n (P.ρ.value start) (P.ρ.value stop) (P.ρ.value step))) := by
  rw [Renaming.select_value]
  cases Slice.select n start stop step with
  | ok ps => exact mirrors_same ps
  | error f => exact mirrors_throw f

theorem mirrors_slice (v start stop step : Value) :
    P.Mirrors P.ρ.value (slice v start stop step)
      (slice (P.ρ.value v) (P.ρ.value start) (P.ρ.value stop) (P.ρ.value step)) := by
  cases v with
  | list r =>
    refine mirrors_heap_bind (fun h => ?_) fun h h' himage => ?_
    · exact (mirrors_select _ _ _ _).bounded.bind fun ps => (mirrors_newList _).bounded
    · dsimp only
      rw [himage.elems, List.length_map]
      refine (mirrors_select _ _ _ _).bind fun ps => ?_
      rw [Renaming.pick_map]
      exact mirrors_newList _
  | tuple vs =>
    rw [Renaming.value_tuple]
    unfold slice
    dsimp only
    rw [List.length_map]
    refine (mirrors_select _ _ _ _).bind fun ps => Simulates.pure ?_
    rw [Renaming.pick_map, Renaming.value_tuple]
    rfl
  | atom a =>
    cases a with
    | str s => exact (mirrors_select _ _ _ _).bind fun ps => mirrors_pure (Value.str _)
    | _ => exact mirrors_fail _
  | _ => exact mirrors_fail _

theorem mirrors_sliceArgs (args : List Value) :
    P.Mirrors P.ρ.value (sliceArgs args) (sliceArgs (args.map P.ρ.value)) := by
  cases args with
  | nil => exact mirrors_pure Value.null
  | cons v bounds =>
    refine (mirrors_checkBounds 1 bounds).bind fun _ => ?_
    rcases bounds with _ | ⟨start, _ | ⟨stop, _ | ⟨step, rest⟩⟩⟩
    · exact mirrors_pure Value.null
    · exact mirrors_slice v .null start .null
    · exact mirrors_slice v start stop .null
    · exact mirrors_slice v start stop step

theorem mirrors_splitArgs (args : List Value) :
    P.Mirrors P.ρ.value (splitArgs args) (splitArgs (args.map P.ρ.value)) := by
  rcases args with _ | ⟨v, _ | ⟨w, _ | ⟨u, rest⟩⟩⟩
  · exact mirrors_pure Value.null
  · cases v with
    | atom a => cases a <;> exact mirrors_fail _
    | _ => exact mirrors_fail _
  · cases v with
    | atom a =>
      cases a with
      | str s =>
        cases w with
        | atom b =>
          cases b with
          | str sep =>
            have hsplit : splitArgs [.str s, .str sep] =
                if sep = "" then fail .emptySeparator else newList ((pieces s sep).map .str) := rfl
            change P.Mirrors _ (splitArgs [.str s, .str sep]) (splitArgs [.str s, .str sep])
            rw [hsplit]
            split
            · exact mirrors_fail _
            · have hlist := mirrors_newList (P := P) ((pieces s sep).map .str)
              rwa [List.map_map] at hlist
          | _ => exact mirrors_fail _
        | _ => exact mirrors_fail _
      | _ => exact mirrors_fail _
    | _ => exact mirrors_fail _
  · cases v with
    | atom a =>
      cases a with
      | str s =>
        cases w with
        | atom b => cases b <;> exact mirrors_fail _
        | _ => exact mirrors_fail _
      | _ => exact mirrors_fail _
    | _ => exact mirrors_fail _

theorem mirrors_applyStrict (op : StrictOp) (args : List Value) :
    P.Mirrors P.ρ.value (applyStrict op args) (applyStrict op (args.map P.ρ.value)) := by
  cases op with
  | arith op => exact mirrors_ofExcept (Parallel.of_eq (Renaming.fold_value op args))
  | list => exact mirrors_newList _
  | tuple => exact Simulates.pure (Renaming.value_tuple args).symm
  | set => exact mirrors_makeSet _
  | len => exact mirrors_totalLength _
  | slice => exact mirrors_sliceArgs _
  | cat => exact (mirrors_collect args).bind fun elems => mirrors_newList _
  | intoList => exact (mirrors_collect args).bind fun elems => mirrors_newList _
  | intoTuple => exact (mirrors_collect args).map fun elems => (Renaming.value_tuple elems).symm
  | intoDict => exact (mirrors_collect args).bind fun elems => mirrors_makeDict_collect elems []
  | intoSet => exact (mirrors_collect args).bind fun elems => mirrors_makeSet _
  | str => exact (mirrors_concat args).map fun _ => rfl
  | kw => exact (mirrors_concat args).map fun _ => rfl
  | split => exact mirrors_splitArgs _

section

variable {r : Recursor} (hr : r.Mirrored P) (s : ScopeRef)
include hr

theorem mirrors_evalAll (cs : List Code) :
    P.Mirrors (List.map P.ρ.value) (evalAll r s cs) (evalAll r (P.ρ.scope s) (cs.map P.ρ.code)) := by
  induction cs with
  | nil => exact mirrors_pure []
  | cons c cs ih =>
    refine (hr.eval c s).bind fun v => ?_
    exact ih.map fun _ => rfl

theorem mirrors_chain (rel : Relation) (left : Value) (cs : List Code) :
    P.Mirrors id (chain r s rel left cs)
      (chain r (P.ρ.scope s) rel (P.ρ.value left) (cs.map P.ρ.code)) := by
  induction cs generalizing left with
  | nil => exact mirrors_same true
  | cons c cs ih =>
    refine (hr.eval c s).bind fun right => ?_
    refine mirrors_examine (m := id) (fun h h' himage => ?_) fun holds => ?_
    · rw [himage.relate?, Option.map_id]
      rfl
    · refine (mirrors_ofExcept_same holds).bind fun holds => ?_
      dsimp only [id]
      split
      · exact ih right
      · exact mirrors_same false

theorem mirrors_callRelation (rel : Relation) (args : List Code) :
    P.Mirrors P.ρ.value (callRelation r rel args s)
      (callRelation r rel (args.map P.ρ.code) (P.ρ.scope s)) := by
  refine (mirrors_checkArity args _ _).bind fun _ => ?_
  cases args with
  | nil => exact mirrors_pure (Value.bool true)
  | cons c cs =>
    refine (hr.eval c s).bind fun left => ?_
    exact (mirrors_chain hr s rel left cs).map fun _ => rfl

theorem mirrors_evalUntil (stop : Bool) (cs : List Code) :
    P.Mirrors id (evalUntil r s stop cs) (evalUntil r (P.ρ.scope s) stop (cs.map P.ρ.code)) := by
  induction cs with
  | nil => exact mirrors_same false
  | cons c cs ih =>
    refine (hr.eval c s).bind fun v => ?_
    refine mirrors_heap_bind (fun h => ?_) fun h h' himage => ?_
    · split
      · exact (mirrors_same (P := P) true).bounded
      · exact ih.bounded
    · rw [himage.truthy]
      split
      · exact mirrors_same true
      · exact ih

theorem mirrors_allPass (t : TypeTest) (cs : List Code) :
    P.Mirrors id (allPass r s t cs) (allPass r (P.ρ.scope s) t (cs.map P.ρ.code)) := by
  induction cs with
  | nil => exact mirrors_same true
  | cons c cs ih =>
    refine (hr.eval c s).bind fun v => ?_
    rw [Renaming.holds_value]
    split
    · exact ih
    · exact mirrors_same false

theorem mirrors_containsAll (col : Value) (cs : List Code) :
    P.Mirrors id (containsAll r s col cs)
      (containsAll r (P.ρ.scope s) (P.ρ.value col) (cs.map P.ρ.code)) := by
  induction cs with
  | nil => exact mirrors_same true
  | cons c cs ih =>
    refine (hr.eval c s).bind fun elem => ?_
    refine mirrors_examine (m := id) (fun h h' himage => ?_) fun found => ?_
    · rw [himage.contains, Option.map_id]
      rfl
    · refine (mirrors_ofExcept_same found).bind fun found => ?_
      dsimp only [id]
      split
      · exact ih
      · exact mirrors_same false

theorem mirrors_callContains (args : List Code) :
    P.Mirrors P.ρ.value (callContains r args s) (callContains r (args.map P.ρ.code) (P.ρ.scope s)) := by
  refine (mirrors_checkArity args _ _).bind fun _ => ?_
  cases args with
  | nil => exact mirrors_pure (Value.bool true)
  | cons c cs =>
    refine (hr.eval c s).bind fun col => ?_
    exact (mirrors_containsAll hr s col cs).map fun _ => rfl

theorem mirrors_quoteAll (cs : List Code) :
    P.Mirrors (List.map P.ρ.value) (quoteAll r s cs) (quoteAll r (P.ρ.scope s) (cs.map P.ρ.code)) := by
  induction cs with
  | nil => exact mirrors_pure []
  | cons c cs ih =>
    refine (hr.quote c s).bind fun v => ?_
    exact ih.map fun _ => rfl

theorem mirrors_evalSequence (last : Value) (cs : List Code) :
    P.Mirrors P.ρ.value (evalSequence r s last cs)
      (evalSequence r (P.ρ.scope s) (P.ρ.value last) (cs.map P.ρ.code)) := by
  induction cs generalizing last with
  | nil => exact mirrors_pure last
  | cons c cs ih => exact (hr.eval c s).bind fun v => ih v

theorem mirrors_callCond (args : List Code) :
    P.Mirrors P.ρ.value (callCond r args s) (callCond r (args.map P.ρ.code) (P.ρ.scope s)) := by
  refine (mirrors_checkArity args _ _).bind fun _ => ?_
  rcases args with _ | ⟨c, _ | ⟨yes, no⟩⟩
  · exact mirrors_pure Value.null
  · exact mirrors_pure Value.null
  · refine (hr.eval c s).bind fun v => ?_
    refine mirrors_heap_bind (fun h => ?_) fun h h' himage => ?_
    · split
      · exact (hr.eval yes s).bounded
      · cases no with
        | nil => exact (mirrors_same (P := P) Value.null).bounded
        | cons no rest => exact (hr.eval no s).bounded
    · rw [himage.truthy]
      split
      · exact hr.eval yes s
      · cases no with
        | nil => exact mirrors_pure Value.null
        | cons no rest => exact hr.eval no s

theorem mirrors_callDefine (args : List Code) :
    P.Mirrors P.ρ.value (callDefine r args s) (callDefine r (args.map P.ρ.code) (P.ρ.scope s)) := by
  refine (mirrors_checkArity args _ _).bind fun _ => ?_
  rcases args with _ | ⟨pattern, _ | ⟨c, _ | ⟨d, rest⟩⟩⟩
  · exact mirrors_pure Value.null
  · exact mirrors_pure Value.null
  · refine (hr.eval c s).bind fun v => ?_
    exact (hr.bind pattern (.value v) s).bind fun _ => mirrors_pure v
  · exact mirrors_pure Value.null

theorem mirrors_callThread (args : List Code) :
    P.Mirrors P.ρ.value (callThread r args s) (callThread r (args.map P.ρ.code) (P.ρ.scope s)) := by
  refine (mirrors_checkArity args _ _).bind fun _ => ?_
  cases args with
  | nil => exact mirrors_pure Value.null
  | cons c forms =>
    refine (mirrors_resolve c).bind fun c => ?_
    exact (mirrors_threadForms c forms).bind fun form => hr.eval form s

theorem mirrors_evalEach (pattern body : Code) (last : Value) (places : List Place) :
    P.Mirrors P.ρ.value (evalEach r s pattern body last places)
      (evalEach r (P.ρ.scope s) (P.ρ.code pattern) (P.ρ.code body) (P.ρ.value last)
        (places.map P.ρ.place)) := by
  induction places generalizing last with
  | nil => exact mirrors_pure last
  | cons p ps ih =>
    refine (hr.bind pattern p s).bind fun _ => ?_
    exact (hr.eval body s).bind fun v => ih v

omit hr in
theorem code_bodyOf (ρ : Renaming) (cs : List Code) : bodyOf (cs.map ρ.code) = ρ.code (bodyOf cs) := by
  rcases cs with _ | ⟨c, _ | ⟨d, cs⟩⟩
  · rfl
  · rfl
  · exact (Renaming.code_form (.sym "do" :: c :: d :: cs)).symm

theorem mirrors_callEach (args : List Code) :
    P.Mirrors P.ρ.value (callEach r args s) (callEach r (args.map P.ρ.code) (P.ρ.scope s)) := by
  refine (mirrors_checkArity args _ _).bind fun _ => ?_
  rcases args with _ | ⟨pattern, _ | ⟨c, body⟩⟩
  · exact mirrors_pure Value.null
  · exact mirrors_pure Value.null
  · refine (mirrors_resolve pattern).bind fun pattern => ?_
    refine (mirrors_resolveAll body).bind fun body => ?_
    refine (hr.eval c s).bind fun col => ?_
    refine mirrors_attempt (fun h h' himage => Parallel.of_eq (himage.loopPlaces col)) fun places => ?_
    rw [code_bodyOf]
    exact mirrors_evalEach hr s _ _ _ places

theorem mirrors_getFrom (col : Value) (args : List Code) :
    P.Mirrors P.ρ.value (getFrom r col args s)
      (getFrom r (P.ρ.value col) (args.map P.ρ.code) (P.ρ.scope s)) := by
  refine (mirrors_checkArity args _ _).bind fun _ => ?_
  rcases args with _ | ⟨k, _ | ⟨default, rest⟩⟩
  · exact mirrors_pure Value.null
  · refine (hr.eval k s).bind fun key => ?_
    exact mirrors_heap_ofExcept fun h h' himage => himage.index col key
  · refine (hr.eval k s).bind fun key => ?_
    refine mirrors_heap_bind (fun h => ?_) fun h h' himage => ?_
    · split
      · exact bounded_ofExcept _
      · exact (hr.eval default s).bounded
    · rw [himage.hasIndex]
      split
      · exact mirrors_ofExcept (himage.index col key)
      · exact hr.eval default s

theorem mirrors_callGet (args : List Code) :
    P.Mirrors P.ρ.value (callGet r args s) (callGet r (args.map P.ρ.code) (P.ρ.scope s)) := by
  refine (mirrors_checkArity args _ _).bind fun _ => ?_
  cases args with
  | nil => exact mirrors_pure Value.null
  | cons c rest => exact (hr.eval c s).bind fun col => mirrors_getFrom hr s col rest

end

end EvalM

end EventTally
