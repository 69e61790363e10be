import EventTally.Proofs.Renaming.Calls

/-! # Matching and evaluation in images of heaps

Patterns take the same values apart in an image of a heap. With that every part of an evaluation is
the same there, and so is the evaluation with any amount of fuel.
-/

namespace EventTally

namespace EvalM

variable {P : Pairing}

theorem mirrors_removeMembers (wanted members : List Value) :
    P.Mirrors (List.map P.ρ.value) (removeMembers wanted members)
      (removeMembers (wanted.map P.ρ.value) (members.map P.ρ.value)) := by
  induction wanted generalizing members with
  | nil => exact mirrors_pure members
  | cons v wanted ih =>
    have hfail : P.Mirrors (List.map P.ρ.value)
        (do mismatch ("lacks element " ++ (← datum v).plain))
        (do mismatch ("lacks element " ++ (← datum (P.ρ.value v)).plain)) :=
      mirrors_datum_fail v fun text => .patternMismatch "value" ("lacks element " ++ text)
    refine mirrors_heap_bind (fun h => ?_) fun h h' himage => ?_
    · split
      · exact (ih _).bounded
      · exact hfail.bounded
    · rw [himage.anySameKey, himage.eraseMember]
      split
      · exact ih _
      · exact hfail

section

variable {r : Recursor} (hr : r.Mirrored P) (s : ScopeRef)
include hr

theorem mirrors_bindEach (ps : List Code) (places : List Place) :
    P.Mirrors id (bindEach r s ps places)
      (bindEach r (P.ρ.scope s) (ps.map P.ρ.code) (places.map P.ρ.place)) := by
  induction ps generalizing places with
  | nil =>
    cases places <;> exact mirrors_same ()
  | cons p ps ih =>
    cases places with
    | nil => exact mirrors_same ()
    | cons v vs => exact (hr.bind p v s).bind fun _ => ih vs

theorem mirrors_bindElems (ps : List Code) (places : List Place) :
    P.Mirrors id (bindElems r s ps places)
      (bindElems r (P.ρ.scope s) (ps.map P.ρ.code) (places.map P.ρ.place)) := by
  unfold bindElems
  rw [List.length_map, List.length_map]
  split
  · exact mirrors_bindEach hr s ps places
  · exact mirrors_fail _

theorem mirrors_bindEntries (patterns : List (Value × Code)) (entries : List (Value × Value)) :
    P.Mirrors (List.map P.ρ.entry) (bindEntries r s patterns entries)
      (bindEntries r (P.ρ.scope s) (patterns.map P.ρ.codeEntry) (entries.map P.ρ.entry)) := by
  induction patterns generalizing entries with
  | nil => exact mirrors_pure entries
  | cons pattern patterns ih =>
    obtain ⟨k, p⟩ := pattern
    have hfail : P.Mirrors (List.map P.ρ.entry)
        (do mismatch ("lacks key " ++ (← datum k).plain))
        (do mismatch ("lacks key " ++ (← datum (P.ρ.value k)).plain)) :=
      mirrors_datum_fail k fun text => .patternMismatch "value" ("lacks key " ++ text)
    refine mirrors_heap_bind (fun h => ?_) fun h h' himage => ?_
    · split
      · exact hfail.bounded
      · exact (hr.bind _ _ s).bounded.bind fun _ => (ih _).bounded
    · dsimp only [Renaming.codeEntry]
      rw [himage.findEntry, himage.eraseEntry]
      cases h.findEntry entries k with
      | none => exact hfail
      | some v => exact (hr.bind p (.value v) s).bind fun _ => ih _

theorem mirrors_dictPattern (elems : List Code) :
    P.Mirrors (List.map P.ρ.codeEntry) (dictPattern r s elems)
      (dictPattern r (P.ρ.scope s) (elems.map P.ρ.code)) := by
  have hcollect : ∀ acc cs, P.Mirrors (List.map P.ρ.codeEntry) (dictPattern.collect r s acc cs)
      (dictPattern.collect r (P.ρ.scope s) (acc.map P.ρ.codeEntry) (cs.map P.ρ.code)) := by
    intro acc cs
    fun_induction dictPattern.collect r s acc cs with
    | case1 acc k p rest ih =>
      refine (hr.eval k s).bind fun key => ?_
      refine (mirrors_resolve p).bind fun p => ?_
      refine mirrors_attempt (fun h h' himage => Parallel.of_eq ?_) fun acc' => ih acc'
      exact himage.insertEntry (m := P.ρ.codeEntry) (fun _ => rfl) key p acc
    | case2 cs acc hshort =>
      have hsorted : P.Mirrors (List.map P.ρ.codeEntry) (do return (← heap).sortEntries acc)
          (do return (← heap).sortEntries (acc.map P.ρ.codeEntry)) :=
        mirrors_heap_map fun h h' himage => himage.sortEntries (m := P.ρ.codeEntry) (fun _ => rfl) acc
      rcases cs with _ | ⟨c, _ | ⟨d, cs⟩⟩
      · exact hsorted
      · exact hsorted
      · exact absurd rfl (hshort c d cs)
  unfold dictPattern
  rw [List.length_map]
  split
  · exact mirrors_fail _
  · exact hcollect [] elems

theorem mirrors_setPattern (elems : List Code) :
    P.Mirrors (List.map P.ρ.value) (setPattern r s elems)
      (setPattern r (P.ρ.scope s) (elems.map P.ρ.code)) := by
  have hcollect : ∀ acc, P.Mirrors (List.map P.ρ.value) (setPattern.collect r s acc elems)
      (setPattern.collect r (P.ρ.scope s) (acc.map P.ρ.value) (elems.map P.ρ.code)) := by
    induction elems with
    | nil => exact fun acc => mirrors_heap_map fun h h' himage => himage.sortMembers acc
    | cons c cs ih =>
      intro acc
      refine (hr.eval c s).bind fun v => ?_
      exact mirrors_attempt (fun h h' himage => Parallel.of_eq (himage.insertMember v acc))
        fun acc => ih acc
  exact hcollect []

theorem mirrors_bindLiteral (pattern : Code) (v : Value) :
    P.Mirrors id (bindLiteral r s pattern v)
      (bindLiteral r (P.ρ.scope s) (P.ρ.code pattern) (P.ρ.value v)) := by
  refine (hr.eval pattern s).bind fun want => ?_
  refine mirrors_examine (m := id) (fun h h' himage => ?_) fun same => ?_
  · rw [himage.equal?, Option.map_id]
    rfl
  · dsimp only [id]
    split
    · exact mirrors_same ()
    · refine (mirrors_datum want).bind fun d => (mirrors_datum v).bind fun d' => ?_
      rw [Datum.plain_rename, Datum.plain_rename]
      exact mirrors_fail _

omit hr in
/-- What is read has to be as long as the pattern. -/
theorem mirrors_matchLength {α β γ δ : Type} {m : γ → δ} {g : α → β} {p : Heap → List γ}
    {q : Heap → List δ} {act : List γ → EvalM α} {act' : List δ → EvalM β}
    (hread : ∀ h h', Heap.Image P.ρ P.final P.old h h' → q h' = (p h).map m)
    (hact : ∀ xs, P.Mirrors g (act xs) (act' (xs.map m))) (n : Nat) (noun : String) :
    P.Mirrors id
      (do
        let xs := p (← heap)
        if n = xs.length then
          let _ ← act xs
        else mismatch ("must have " ++ Reason.plural n noun ++ ", but has " ++ toString xs.length))
      (do
        let xs := q (← heap)
        if n = xs.length then
          let _ ← act' xs
        else mismatch ("must have " ++ Reason.plural n noun ++ ", but has " ++ toString xs.length)) := by
  have hdone (xs : List γ) : P.Mirrors id (act xs >>= fun _ => pure ())
      (act' (xs.map m) >>= fun _ => pure ()) := (hact xs).bind fun _ => mirrors_same ()
  refine mirrors_heap_bind (fun h => ?_) fun h h' himage => ?_
  · dsimp only
    split
    · exact (hdone _).bounded
    · exact fun _ hlimit => hlimit
  · dsimp only
    rw [hread h h' himage, List.length_map]
    split
    · exact hdone _
    · exact mirrors_fail _

theorem mirrors_bindPlain (b : Bracket) (elems : List Code) (v : Value) :
    P.Mirrors id (bindPlain r s b elems v)
      (bindPlain r (P.ρ.scope s) b (elems.map P.ρ.code) (P.ρ.value v)) := by
  cases v with
  | list l =>
    cases b with
    | list =>
      refine mirrors_read (m := List.map P.ρ.place) (p := fun h => h.places l)
        (q := fun h => h.places (P.ρ.list l)) (fun h h' himage => himage.places l) fun places => ?_
      exact mirrors_bindElems hr s elems places
    | _ => exact mirrors_fail _
  | tuple vs =>
    cases b with
    | tuple =>
      have helems := mirrors_bindElems hr s elems (vs.map .value)
      rw [Renaming.value_tuple]
      rw [List.map_map] at helems
      change P.Mirrors id _ (bindElems r (P.ρ.scope s) _ ((vs.map P.ρ.value).map Place.value))
      rw [List.map_map]
      exact helems
    | _ => exact mirrors_fail _
  | dict d =>
    cases b with
    | dict =>
      refine (mirrors_dictPattern hr s elems).bind fun patterns => ?_
      rw [List.length_map]
      exact mirrors_matchLength (fun h h' himage => himage.entries d)
        (mirrors_bindEntries hr s patterns) patterns.length "key"
    | _ => exact mirrors_fail _
  | set m =>
    cases b with
    | set =>
      refine (mirrors_setPattern hr s elems).bind fun wanted => ?_
      rw [List.length_map]
      exact mirrors_matchLength (fun h h' himage => himage.members m)
        (mirrors_removeMembers wanted) wanted.length "element"
    | _ => exact mirrors_fail _
  | atom a => cases b <;> exact mirrors_fail _
  | builtin x => cases b <;> exact mirrors_fail _
  | closure ref => cases b <;> exact mirrors_fail _

omit hr in
theorem mirrors_restOf (b : Bracket) (places : List Place) :
    P.Mirrors P.ρ.value (restOf b places) (restOf b (places.map P.ρ.place)) := by
  refine mirrors_heap_bind (fun h => ?_) fun h h' himage => ?_
  · dsimp only
    split
    · exact fun _ hlimit => hlimit
    · exact (mirrors_newList _).bounded
  · have hvalues : (places.map P.ρ.place).map h'.read = (places.map h.read).map P.ρ.value := by
      rw [List.map_map, List.map_map]
      exact List.map_congr_left fun p _ => himage.read p
    dsimp only
    rw [hvalues]
    split
    · exact Simulates.pure (Renaming.value_tuple _).symm
    · exact mirrors_newList _

theorem mirrors_bindSpreadSeq (b : Bracket) (chunks : List Code) (places : List Place) :
    P.Mirrors id (bindSpreadSeq r s b chunks places)
      (bindSpreadSeq r (P.ρ.scope s) b (chunks.map P.ρ.code) (places.map P.ρ.place)) := by
  induction chunks generalizing places with
  | nil => exact mirrors_same ()
  | cons chunk chunks ih =>
    refine (mirrors_taggedForm? b.tag chunk).bind fun elems => ?_
    cases elems with
    | none =>
      refine (mirrors_restOf b places).bind fun rest => ?_
      refine (hr.bind chunk (.value rest) s).bind fun _ => ih []
    | some elems =>
      dsimp only [Option.map_some]
      rw [List.length_map, List.length_map, ← List.map_take, ← List.map_drop]
      split
      · exact mirrors_fail _
      · exact (mirrors_bindElems hr s elems _).bind fun _ => ih _

theorem mirrors_bindSpreadDict (chunks : List Code) (entries : List (Value × Value)) :
    P.Mirrors id (bindSpreadDict r s chunks entries)
      (bindSpreadDict r (P.ρ.scope s) (chunks.map P.ρ.code) (entries.map P.ρ.entry)) := by
  induction chunks generalizing entries with
  | nil => exact mirrors_same ()
  | cons chunk chunks ih =>
    refine (mirrors_taggedForm? "dict" chunk).bind fun elems => ?_
    cases elems with
    | none =>
      refine (mirrors_newDict entries).bind fun rest => ?_
      exact (hr.bind chunk (.value rest) s).bind fun _ => ih []
    | some elems =>
      refine (mirrors_dictPattern hr s elems).bind fun patterns => ?_
      exact (mirrors_bindEntries hr s patterns entries).bind fun rest => ih rest

theorem mirrors_bindSpreadSet (chunks : List Code) (members : List Value) :
    P.Mirrors id (bindSpreadSet r s chunks members)
      (bindSpreadSet r (P.ρ.scope s) (chunks.map P.ρ.code) (members.map P.ρ.value)) := by
  induction chunks generalizing members with
  | nil => exact mirrors_same ()
  | cons chunk chunks ih =>
    refine (mirrors_taggedForm? "set" chunk).bind fun elems => ?_
    cases elems with
    | none =>
      refine (mirrors_newSet members).bind fun rest => ?_
      exact (hr.bind chunk (.value rest) s).bind fun _ => ih []
    | some elems =>
      refine (mirrors_setPattern hr s elems).bind fun wanted => ?_
      exact (mirrors_removeMembers wanted members).bind fun rest => ih rest

theorem mirrors_bindSpread (b : Bracket) (chunks : List Code) (v : Value) :
    P.Mirrors id (bindSpread r s b chunks v)
      (bindSpread r (P.ρ.scope s) b (chunks.map P.ρ.code) (P.ρ.value v)) := by
  cases v with
  | list l =>
    cases b with
    | list =>
      exact mirrors_read (m := List.map P.ρ.place) (p := fun h => h.places l)
        (q := fun h => h.places (P.ρ.list l)) (fun h h' himage => himage.places l)
        fun places => mirrors_bindSpreadSeq hr s .list chunks places
    | _ => exact mirrors_fail _
  | tuple vs =>
    cases b with
    | tuple =>
      have hseq := mirrors_bindSpreadSeq hr s .tuple chunks (vs.map .value)
      rw [Renaming.value_tuple]
      rw [List.map_map] at hseq
      change P.Mirrors id _ (bindSpreadSeq r (P.ρ.scope s) .tuple _ ((vs.map P.ρ.value).map Place.value))
      rw [List.map_map]
      exact hseq
    | _ => exact mirrors_fail _
  | dict d =>
    cases b with
    | dict =>
      exact mirrors_read (m := List.map P.ρ.entry) (p := fun h => h.entries d)
        (q := fun h => h.entries (P.ρ.dict d)) (fun h h' himage => himage.entries d)
        fun entries => mirrors_bindSpreadDict hr s chunks entries
    | _ => exact mirrors_fail _
  | set m =>
    cases b with
    | set =>
      exact mirrors_read (m := List.map P.ρ.value) (p := fun h => h.members m)
        (q := fun h => h.members (P.ρ.set m)) (fun h h' himage => himage.members m)
        fun members => mirrors_bindSpreadSet hr s chunks members
    | _ => exact mirrors_fail _
  | atom a => cases b <;> exact mirrors_fail _
  | builtin x => cases b <;> exact mirrors_fail _
  | closure ref => cases b <;> exact mirrors_fail _

theorem mirrors_bindForm (pattern : Code) (v : Value) :
    P.Mirrors id
      (do
        match ← formOf? pattern with
        | none => bindLiteral r s pattern v
        | some elems =>
          match ← headOf? elems with
          | none => bindLiteral r s pattern v
          | some head =>
            match Bracket.ofTag? head, Bracket.ofIntoTag? head with
            | some b, _ => bindPlain r s b (elems.drop 1) v
            | none, some b => bindSpread r s b (elems.drop 1) v
            | none, none => bindLiteral r s pattern v)
      (do
        match ← formOf? (P.ρ.code pattern) with
        | none => bindLiteral r (P.ρ.scope s) (P.ρ.code pattern) (P.ρ.value v)
        | some elems =>
          match ← headOf? elems with
          | none => bindLiteral r (P.ρ.scope s) (P.ρ.code pattern) (P.ρ.value v)
          | some head =>
            match Bracket.ofTag? head, Bracket.ofIntoTag? head with
            | some b, _ => bindPlain r (P.ρ.scope s) b (elems.drop 1) (P.ρ.value v)
            | none, some b => bindSpread r (P.ρ.scope s) b (elems.drop 1) (P.ρ.value v)
            | none, none => bindLiteral r (P.ρ.scope s) (P.ρ.code pattern) (P.ρ.value v)) := by
  have hliteral := mirrors_bindLiteral hr s pattern v
  refine (mirrors_formOf? pattern).bind fun form => ?_
  cases form with
  | none => exact hliteral
  | some elems =>
    refine (mirrors_headOf? elems).bind fun head => ?_
    cases head with
    | none => exact hliteral
    | some head =>
      dsimp only [id]
      rw [← List.map_drop]
      cases Bracket.ofTag? head with
      | some b => exact mirrors_bindPlain hr s b _ v
      | none =>
        cases Bracket.ofIntoTag? head with
        | some b => exact mirrors_bindSpread hr s b _ v
        | none => exact hliteral

theorem mirrors_bindStep (pattern : Code) (place : Place) :
    P.Mirrors id (bindStep r pattern place s)
      (bindStep r (P.ρ.code pattern) (P.ρ.place place) (P.ρ.scope s)) := by
  have hread : P.Mirrors P.ρ.value (read place) (read (P.ρ.place place)) :=
    mirrors_heap_map fun h h' himage => himage.read place
  refine hread.bind fun v => ?_
  refine (mirrors_resolve pattern).bind fun pattern => ?_
  have hform := mirrors_bindForm hr s pattern v
  cases pattern with
  | value u =>
    cases u with
    | atom a =>
      cases a with
      | sym name =>
        change P.Mirrors id (if name = "_" then pure () else bindName s name v)
          (if name = "_" then pure () else bindName (P.ρ.scope s) name (P.ρ.value v))
        split
        · exact mirrors_same ()
        · exact mirrors_bindName s name v
      | _ => exact hform
    | _ => exact hform
  | _ => exact hform

end

section

variable {r : Recursor} (hr : r.Mirrored P)
include hr

theorem mirrors_applyClosure (ref : ClosureRef) (args : List Value) :
    P.Mirrors P.ρ.value (applyClosure r ref args)
      (applyClosure r (P.ρ.closure ref) (args.map P.ρ.value)) := by
  have hcall (f : Closure) : P.Mirrors P.ρ.value
      (do
        let scope ← newScope f.scope
        withFrame (closureName f) do
          let list ← newList args
          r.bind f.pattern (.value list) scope
          r.eval f.body scope)
      (do
        let scope ← newScope (P.ρ.scope f.scope)
        withFrame (closureName (P.ρ.function f)) do
          let list ← newList (args.map P.ρ.value)
          r.bind (P.ρ.code f.pattern) (.value list) scope
          r.eval (P.ρ.code f.body) scope) := by
    refine (mirrors_newScope f.scope).bind fun scope => mirrors_withFrame _ ?_
    refine (mirrors_newList args).bind fun list => ?_
    exact (hr.bind f.pattern (.value list) scope).bind fun _ => hr.eval f.body scope
  refine mirrors_heap_bind (fun h => (hcall _).bounded) fun h h' himage => ?_
  dsimp only
  rw [himage.closure]
  exact hcall _

variable (s : ScopeRef)

theorem mirrors_callBuiltin (b : Builtin) (args : List Code) :
    P.Mirrors P.ρ.value (callBuiltin r b args s)
      (callBuiltin r b (args.map P.ρ.code) (P.ρ.scope s)) := by
  cases b with
  | quote =>
    refine (mirrors_checkArity args _ _).bind fun _ => ?_
    cases args with
    | nil => exact mirrors_pure Value.null
    | cons c cs => exact hr.quote c s
  | eval =>
    refine (mirrors_checkArity args _ _).bind fun _ => ?_
    cases args with
    | nil => exact mirrors_pure Value.null
    | cons c cs => exact (hr.eval c s).bind fun v => hr.eval (.value v) s
  | sequence => exact mirrors_evalSequence hr s .null args
  | cond => exact mirrors_callCond hr s args
  | and => exact (mirrors_evalUntil hr s false args).map fun _ => rfl
  | or => exact (mirrors_evalUntil hr s true args).map fun _ => rfl
  | not => exact (mirrors_evalUntil hr s true args).map fun _ => rfl
  | define => exact mirrors_callDefine hr s args
  | undefine =>
    exact (mirrors_symbolNames args).bind fun names => mirrors_removeNames s .null names
  | isDefined => exact mirrors_callIsDefined args s
  | function => exact mirrors_callFunction args s
  | defineFunction => exact mirrors_callDefineFunction args s
  | thread => exact mirrors_callThread hr s args
  | each => exact mirrors_callEach hr s args
  | dict => exact mirrors_callDict hr s args
  | contains => exact mirrors_callContains hr s args
  | get => exact mirrors_callGet hr s args
  | put => exact mirrors_callPut hr s args
  | del => exact mirrors_callDel hr s args
  | strict op =>
    refine (mirrors_checkArity args _ _).bind fun _ => ?_
    exact (mirrors_evalAll hr s args).bind fun vs => mirrors_applyStrict op vs
  | relation rel => exact mirrors_callRelation hr s rel args
  | test t negated => exact (mirrors_allPass hr s t args).map fun _ => rfl
  | getTally => exact mirrors_callGetTally args
  | probe => exact mirrors_callProbe hr s .null args
  | raise => exact mirrors_fail _

theorem mirrors_callHead (head : Value) (args : List Code) :
    P.Mirrors P.ρ.value (callHead r head args s)
      (callHead r (P.ρ.value head) (args.map P.ρ.code) (P.ρ.scope s)) := by
  cases head with
  | builtin b => exact mirrors_withFrame _ (mirrors_callBuiltin hr s b args)
  | closure ref => exact (mirrors_evalAll hr s args).bind fun vs => mirrors_applyClosure hr ref vs
  | list ref => exact mirrors_withFrame _ (mirrors_getFrom hr s (.list ref) args)
  | tuple vs => exact mirrors_withFrame _ (mirrors_getFrom hr s (.tuple vs) args)
  | dict ref => exact mirrors_withFrame _ (mirrors_getFrom hr s (.dict ref) args)
  | atom a => exact mirrors_fail _
  | set ref => exact mirrors_fail _

theorem mirrors_evalForm (c : Code) :
    P.Mirrors P.ρ.value (evalForm r c s) (evalForm r (P.ρ.code c) (P.ρ.scope s)) := by
  refine (mirrors_formOf? c).bind fun form => ?_
  rcases form with _ | _ | ⟨head, args⟩
  · exact mirrors_fail _
  · exact mirrors_fail _
  · refine (hr.eval head s).bind fun v => ?_
    refine (mirrors_formOf? c).bind fun form => ?_
    rcases form with _ | _ | ⟨head, args⟩
    · exact mirrors_throw _
    · exact mirrors_throw _
    · exact mirrors_callHead hr s v args

theorem mirrors_evalStep (c : Code) :
    P.Mirrors P.ρ.value (evalStep r c s) (evalStep r (P.ρ.code c) (P.ρ.scope s)) := by
  refine (mirrors_resolve c).bind fun c => ?_
  cases c with
  | value v =>
    cases v with
    | atom a =>
      cases a with
      | sym name =>
        refine mirrors_heap_bind (fun h => ?_) fun h h' himage => ?_
        · split <;> exact fun _ hlimit => hlimit
        · rw [himage.lookup]
          cases h.lookup s name with
          | none => exact mirrors_fail _
          | some v => exact mirrors_pure v
      | null => exact mirrors_pure Value.null
      | bool b => exact mirrors_pure (Value.bool b)
      | int i => exact mirrors_pure (Value.int i)
      | float f => exact mirrors_pure (Value.float f)
      | str t => exact mirrors_pure (Value.str t)
    | list ref => exact mirrors_evalForm hr s (.value (.list ref))
    | dict d =>
      have hentries (es : List (Value × Value)) : P.Mirrors P.ρ.value
          (evalEntries r s [] (es.flatMap fun e => [.value e.1, .value e.2]))
          (evalEntries r (P.ρ.scope s) []
            ((es.map P.ρ.entry).flatMap fun e => [.value e.1, .value e.2])) := by
        have hcodes := mirrors_evalEntries hr s [] (es.flatMap fun e => [.value e.1, .value e.2])
        rw [List.map_flatMap] at hcodes
        rw [List.flatMap_map]
        exact hcodes
      refine mirrors_heap_bind (fun h => (hentries _).bounded) fun h h' himage => ?_
      dsimp only
      rw [himage.entries, himage.sortEntries (m := P.ρ.entry) fun _ => rfl]
      exact hentries _
    | tuple vs => exact mirrors_pure (Value.tuple vs)
    | set ref => exact mirrors_pure (Value.set ref)
    | builtin b => exact mirrors_pure (Value.builtin b)
    | closure ref => exact mirrors_pure (Value.closure ref)
  | form cs => exact mirrors_evalForm hr s (.form cs)
  | slot ref i => exact mirrors_evalForm hr s (.slot ref i)

end

theorem mirrored_recursor (P : Pairing) (fuel : Nat) : (recursor fuel).Mirrored P := by
  induction fuel with
  | zero =>
    constructor
    · exact fun _ _ => mirrors_throw _
    · exact fun _ _ _ => mirrors_throw _
    · exact fun _ _ => mirrors_throw _
  | succ fuel ih =>
    constructor
    · exact fun c s => mirrors_evalStep ih s c
    · exact fun pattern place s => mirrors_bindStep ih s pattern place
    · exact fun c s => mirrors_quoteStep ih s c

end EvalM

end EventTally
