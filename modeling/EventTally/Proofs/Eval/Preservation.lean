import EventTally.Proofs.Eval.Contract
import EventTally.Proofs.Keyed

/-! # Every evaluation keeps its contract

One lemma for each part of the evaluator, in the order of their definitions: if evaluation, matching
and quoting keep a contract, so does the part. The induction on the fuel closes the circle. Two
recursors are followed side by side, so that they may have different fuel or handle faults in
different ways.
-/

namespace EventTally

theorem Store.sound_of_tally {s : Store} {name : String} {d : Datum} (h : s.tally name = .ok d) :
    d.Sound := by
  unfold Store.tally at h
  split at h
  · cases h
  · exact Codec.sound_of_unmarshal h

structure Recursor.Accord (r r' : Recursor) (K : Contract) : Prop where
  eval : ∀ {s c}, K.own s → K.Runs c → K.Accords K.clean (r.eval c s) (r'.eval (K.code c) s)
  bind : ∀ {s pattern place}, K.own s → K.Runs pattern → K.Reads place →
    K.Accords Anything (r.bind pattern place s) (r'.bind (K.code pattern) place s)
  quote : ∀ {s c}, K.own s → K.Runs c → K.Accords K.clean (r.quote c s) (r'.quote (K.code c) s)

namespace EvalM

def formCalling (call : Value → List Code → EvalM Value) (r : Recursor) (c : Code) (s : ScopeRef) :
    EvalM Value := do
  match ← formOf? c with
  | none | some [] => fail .emptyForm
  | some (head :: _) =>
    let v ← r.eval head s
    match ← formOf? c with
    | some (_ :: args) => call v args
    | _ => throw .crashed

/-- Evaluates code and leaves the call of a form to `call`. -/
def stepCalling (call : Value → List Code → EvalM Value) (r : Recursor) (c : Code) (s : ScopeRef) :
    EvalM Value := do
  match ← resolve c with
  | .value (.atom (.sym name)) =>
    match (← heap).lookup s name with
    | some v => return v
    | none => fail (.noSuchName name)
  | .value (.list ref) => formCalling call r (.value (.list ref)) s
  | .value (.dict d) =>
    let h ← heap
    let entries := h.sortEntries (h.entries d)
    evalEntries r s [] (entries.flatMap fun (k, v) => [.value k, .value v])
  | .value v => return v
  | c => formCalling call r c s

end EvalM

namespace Contract

variable {K : Contract}

section

variable (hK : K.Lawful)
include hK

theorem accords_resolve {c : Code} (hc : K.Runs c) :
    K.AccordsAs K.code (fun c => K.Runs c ∧ ∀ r i, c ≠ .slot r i) (EvalM.resolve c)
      (EvalM.resolve (K.code c)) := by
  cases c with
  | slot r i =>
    intro w hw
    refine ⟨hK.recoding.slot hw r i, hw, hK.code hw r i, ?_⟩
    rintro _ _ ⟨⟩
  | value v =>
    have hslot : ∀ r i, Code.value v ≠ .slot r i := by rintro _ _ ⟨⟩
    obtain ⟨_, -, hcode⟩ | ⟨_, _, -, hcode⟩ | ⟨_, hform, -⟩ := code_cases hK hc hslot
    · rw [hcode]
      exact Accords.pureAs hcode.symm ⟨hc, hslot⟩
    · rw [hcode]
      exact Accords.pureAs hcode.symm ⟨hc, hslot⟩
    · cases hform
  | form cs =>
    have hslot : ∀ r i, Code.form cs ≠ .slot r i := by rintro _ _ ⟨⟩
    have hcode := code_form hK cs
    rw [hcode]
    exact Accords.pureAs hcode.symm ⟨hc, hslot⟩

theorem accords_resolveAll {cs : List Code} (hcs : ∀ c ∈ cs, K.Runs c) :
    K.AccordsAs (List.map K.code) (fun cs => ∀ c ∈ cs, K.Runs c) (EvalM.resolveAll cs)
      (EvalM.resolveAll (cs.map K.code)) := by
  induction cs with
  | nil => exact Accords.pureAs rfl hcs
  | cons c cs ih =>
    obtain ⟨hc, hcs⟩ := List.forall_mem_cons.mp hcs
    refine (accords_resolve hK hc).bindAs fun c hc => ?_
    exact (ih hcs).bindAs fun cs hcs => Accords.pureAs rfl (List.forall_mem_cons.mpr ⟨hc.1, hcs⟩)

theorem accords_list (r : ListRef) :
    K.AccordsAs (Option.map (List.map K.code)) (fun form => ∀ cs, form = some cs → ∀ c ∈ cs, K.Runs c)
      (EvalM.formOf? (.value (.list r))) (EvalM.formOf? (K.code (.value (.list r)))) := by
  intro w hw
  refine ⟨hK.recoding.slots hw r, hw, ?_⟩
  rintro cs ⟨⟩
  exact Code.runs_slots _ _

theorem accords_formOf? {c : Code} (hc : K.Runs c) :
    K.AccordsAs (Option.map (List.map K.code)) (fun form => ∀ cs, form = some cs → ∀ c ∈ cs, K.Runs c)
      (EvalM.formOf? c) (EvalM.formOf? (K.code c)) := by
  refine (accords_resolve hK hc).bindAs fun c hc => ?_
  obtain ⟨v, rfl, hcode⟩ | ⟨r, cs, rfl, hcode⟩ | ⟨cs, rfl, hcode⟩ := code_cases hK hc.1 hc.2
  · rw [hcode]
    cases v with
    | list r =>
      have hlist := accords_list hK r
      rwa [hcode] at hlist
    | _ =>
      refine Accords.pureAs rfl ?_
      rintro cs ⟨⟩
  · have hlist := accords_list hK r
    rwa [hcode] at hlist ⊢
  · rw [hcode]
    refine Accords.pureAs rfl ?_
    rintro cs ⟨⟩
    exact hc.1.elems

theorem accords_symbolOf? {c : Code} (hc : K.Runs c) :
    K.Accords Anything (EvalM.symbolOf? c) (EvalM.symbolOf? (K.code c)) := by
  refine (accords_resolve hK hc).bindAs fun c hc => ?_
  obtain ⟨v, rfl, hcode⟩ | ⟨r, cs, rfl, hcode⟩ | ⟨cs, rfl, hcode⟩ := code_cases hK hc.1 hc.2
  · rw [hcode]
    split
    · exact accords_pure (anything _)
    · exact accords_pure (anything _)
  · rw [hcode]
    exact accords_pure (anything _)
  · rw [hcode]
    exact accords_pure (anything _)

theorem accords_headOf? {cs : List Code} (hcs : ∀ c ∈ cs, K.Runs c) :
    K.Accords Anything (EvalM.headOf? cs) (EvalM.headOf? (cs.map K.code)) := by
  cases cs with
  | nil => exact accords_pure (anything _)
  | cons c cs => exact accords_symbolOf? hK (hcs c (by simp))

theorem accords_taggedForm? (tag : String) {c : Code} (hc : K.Runs c) :
    K.AccordsAs (Option.map (List.map K.code)) (fun form => ∀ cs, form = some cs → ∀ c ∈ cs, K.Runs c)
      (EvalM.taggedForm? tag c) (EvalM.taggedForm? tag (K.code c)) := by
  refine (accords_formOf? hK hc).bindAs fun form hform => ?_
  cases form with
  | none =>
    refine Accords.pureAs rfl ?_
    rintro cs ⟨⟩
  | some elems =>
    refine (accords_headOf? hK (hform _ rfl)).bind fun head _ => ?_
    by_cases hhead : head = some tag
    · rw [if_pos hhead, if_pos hhead]
      refine Accords.pureAs (congrArg some List.map_drop.symm) ?_
      rintro cs ⟨⟩ c hc
      exact hform _ rfl c (List.mem_of_mem_drop hc)
    · rw [if_neg hhead, if_neg hhead]
      refine Accords.pureAs rfl ?_
      rintro cs ⟨⟩

theorem accords_checkArity (args : List Code) (low high : Int) :
    K.Accords Anything (EvalM.checkArity args low high)
      (EvalM.checkArity (args.map K.code) low high) := by
  unfold EvalM.checkArity
  rw [List.length_map]
  dsimp only
  split
  · exact accords_fail hK _
  · exact accords_pure (anything _)

theorem accords_codeKind {c : Code} (hc : K.Runs c) :
    K.Accords Anything (EvalM.codeKind c) (EvalM.codeKind (K.code c)) := by
  refine (accords_resolve hK hc).bindAs fun c hc => ?_
  obtain ⟨v, rfl, hcode⟩ | ⟨r, cs, rfl, hcode⟩ | ⟨cs, rfl, hcode⟩ := code_cases hK hc.1 hc.2
  · rw [hcode]
    exact accords_pure (anything _)
  · rw [hcode]
    exact accords_pure (anything _)
  · rw [hcode]
    exact accords_pure (anything _)

theorem accords_codeDatum {c : Code} (hc : K.Runs c) :
    K.Accords Anything (EvalM.codeDatum c) (EvalM.codeDatum (K.code c)) := by
  refine accords_heap_bind fun w hw => ?_
  rw [hK.recoding.codeDatum? hw hc]
  exact accords_ofOption_any hK _

theorem accords_symbolNames {cs : List Code} (hcs : ∀ c ∈ cs, K.Runs c) :
    K.Accords Anything (EvalM.symbolNames cs) (EvalM.symbolNames (cs.map K.code)) := by
  induction cs with
  | nil => exact accords_pure (anything _)
  | cons c cs ih =>
    obtain ⟨hc, hcs⟩ := List.forall_mem_cons.mp hcs
    refine (accords_symbolOf? hK hc).bind fun name _ => ?_
    cases name with
    | some name => exact (ih hcs).bind fun names _ => accords_pure (anything _)
    | none => exact (accords_codeKind hK hc).bind fun kind _ => accords_fail hK _

theorem accords_checkPattern {pattern : Code} (hpattern : K.Runs pattern) :
    K.Accords Anything (EvalM.checkPattern pattern) (EvalM.checkPattern (K.code pattern)) := by
  have htest (head : Option String) : K.Accords Anything
      (if head = some "list" || head = some "into_list" then pure ()
        else do
          EvalM.fail (.badValue "argument pattern" "list or list with spread"
            (← EvalM.codeDatum pattern).plain))
      (if head = some "list" || head = some "into_list" then pure ()
        else do
          EvalM.fail (.badValue "argument pattern" "list or list with spread"
            (← EvalM.codeDatum (K.code pattern)).plain)) := by
    split
    · exact accords_pure (anything _)
    · exact (accords_codeDatum hK hpattern).bind fun d _ => accords_fail hK _
  refine (accords_formOf? hK hpattern).bindAs fun form hform => ?_
  cases form with
  | some elems => exact (accords_headOf? hK (hform _ rfl)).bind fun head _ => htest head
  | none =>
    change K.Accords Anything (pure none >>= fun head => _) (pure none >>= fun head => _)
    rw [pure_bind, pure_bind]
    exact htest none

theorem accords_threadForms {c : Code} (hc : K.Runs c) {forms : List Code}
    (hforms : ∀ c ∈ forms, K.Runs c) :
    K.AccordsAs K.code K.Runs (EvalM.threadForms c forms)
      (EvalM.threadForms (K.code c) (forms.map K.code)) := by
  induction forms generalizing c with
  | nil => exact Accords.pureAs rfl hc
  | cons form forms ih =>
    obtain ⟨hform, hforms⟩ := List.forall_mem_cons.mp hforms
    have hfail : K.AccordsAs K.code K.Runs
        (do
          EvalM.fail (.badValue "argument after the first" "non-empty form"
            (← EvalM.codeDatum form).plain))
        (do
          EvalM.fail (.badValue "argument after the first" "non-empty form"
            (← EvalM.codeDatum (K.code form)).plain)) :=
      (accords_codeDatum hK hform).bind fun d _ => accords_fail hK _
    refine (accords_formOf? hK hform).bindAs fun elems helems => ?_
    match elems with
    | some (head :: rest) =>
      obtain ⟨hhead, hrest⟩ := List.forall_mem_cons.mp (helems _ rfl)
      refine (accords_resolve hK hhead).bindAs fun head hhead => ?_
      refine (accords_resolveAll hK hrest).bindAs fun rest hrest => ?_
      have hthread := ih (c := .form (head :: c :: rest)) (.form ?_) hforms
      · rw [code_form hK] at hthread
        exact hthread
      · exact List.forall_mem_cons.mpr ⟨hhead.1, List.forall_mem_cons.mpr ⟨hc, hrest⟩⟩
    | some [] => exact hfail
    | none => exact hfail

theorem accords_read {p : Place} (hp : K.Reads p) :
    K.Accords K.clean (EvalM.read p) (EvalM.read p) :=
  accords_heap_map fun _ hw => ⟨congrFun (recoded hK hw).read p, clean_read hK hw hp⟩

theorem accords_datum (v : Value) : K.Accords Anything (EvalM.datum v) (EvalM.datum v) := by
  refine accords_heap_bind fun w hw => ?_
  rw [(recoded hK hw).datum?]
  exact accords_ofOption_any hK _

theorem accords_collect {vs : List Value} (hvs : ∀ v ∈ vs, K.clean v) :
    K.Accords (fun elems => ∀ v ∈ elems, K.clean v) (EvalM.collect vs) (EvalM.collect vs) := by
  induction vs with
  | nil => exact accords_pure hvs
  | cons v vs ih =>
    obtain ⟨hv, hvs⟩ := List.forall_mem_cons.mp hvs
    refine accords_heap_bind fun w hw => ?_
    rw [(recoded hK hw).iterate]
    refine (accords_ofExcept hK fun _ => clean_iterate hK hw hv).bind fun elems helems => ?_
    refine (ih hvs).bind fun rest hrest => accords_pure ?_
    exact List.forall_mem_append.mpr ⟨helems, hrest⟩

theorem accords_pairOf {v : Value} (hv : K.clean v) :
    K.Accords (fun pair => K.clean pair.1 ∧ K.clean pair.2) (EvalM.pairOf v) (EvalM.pairOf v) := by
  refine accords_heap_bind fun w hw => ?_
  rw [(recoded hK hw).iterate]
  split
  · next hpair =>
    have helems := clean_iterate hK hw hv hpair
    exact accords_pure ⟨helems _ (by simp), helems _ (by simp)⟩
  · exact (accords_datum hK v).bind fun d _ => accords_fail hK _

theorem accords_totalLength (vs : List Value) :
    K.Accords K.clean (EvalM.totalLength vs) (EvalM.totalLength vs) := by
  refine accords_heap_bind fun w hw => ?_
  rw [(recoded hK hw).len?]
  exact (accords_ofExcept_any hK _).bind fun total _ => accords_pure (hK.atom _)

theorem accords_concat (vs : List Value) :
    K.Accords Anything (EvalM.concat vs) (EvalM.concat vs) := by
  refine accords_heap_bind fun w hw => ?_
  rw [(recoded hK hw).datum?]
  exact (accords_ofOption_any hK _).bind fun ds _ => accords_pure (anything _)

theorem accords_checkBounds (i : Nat) (vs : List Value) :
    K.Accords Anything (EvalM.checkBounds i vs) (EvalM.checkBounds i vs) := by
  fun_induction EvalM.checkBounds i vs with
  | case1 => exact accords_pure (anything _)
  | case2 _ _ _ ih => exact ih
  | case3 _ _ ih => exact ih
  | case4 => exact accords_fail hK _

theorem accords_makeSet {elems : List Value} (helems : ∀ v ∈ elems, K.clean v) :
    K.Accords K.clean (EvalM.makeSet elems) (EvalM.makeSet elems) := by
  refine accords_heap_bind fun w hw => ?_
  rw [(recoded hK hw).insertMember]
  refine (accords_ofExcept hK fun members hmembers => ?_).bind fun _ h => accords_newSet hK h
  refine Codec.foldlM_invariant (P := fun members => ∀ v ∈ members, K.Member v) ?_ ?_ hmembers
  · exact fun acc v hv acc' hacc hins => member_insertMember hK (helems v hv) hacc hins
  · rintro v ⟨⟩

theorem accords_makeDict {elems : List Value} (helems : ∀ v ∈ elems, K.clean v) :
    K.Accords K.clean (EvalM.makeDict elems) (EvalM.makeDict elems) := by
  have hcollect : ∀ acc : List (Value × Value), (∀ e ∈ acc, K.Entry e) →
      K.Accords K.clean (EvalM.makeDict.collect acc elems) (EvalM.makeDict.collect acc elems) := by
    induction elems with
    | nil => exact fun acc hacc => accords_newDict hK hacc
    | cons v vs ih =>
      intro acc hacc
      obtain ⟨hv, hvs⟩ := List.forall_mem_cons.mp helems
      refine (accords_pairOf hK hv).bind fun pair hpair => ?_
      refine accords_heap_bind fun w hw => ?_
      rw [(recoded hK hw).insertEntry]
      refine (accords_ofExcept hK fun acc' hins => ?_).bind fun acc' hacc' => ih hvs acc' hacc'
      exact entry_insertEntry hK hpair.1 hpair.2 hacc hins
  refine hcollect [] ?_
  rintro e ⟨⟩

theorem accords_select (n : Nat) (start stop step : Value) :
    K.Accords Anything (EvalM.slice.liftExcept (Slice.select n start stop step))
      (EvalM.slice.liftExcept (Slice.select n start stop step)) := by
  unfold Slice.select
  dsimp only
  split
  · exact accords_fail hK _
  · exact accords_fail hK _
  · split
    · exact accords_fail hK _
    · exact accords_fail hK _
    · split
      · exact accords_pure (anything _)
      · exact Accords.throw hK.crash

theorem accords_slice {v : Value} (hv : K.clean v) (start stop step : Value) :
    K.Accords K.clean (EvalM.slice v start stop step) (EvalM.slice v start stop step) := by
  have hpick : ∀ {elems : List Value}, (∀ e ∈ elems, K.clean e) → ∀ ps : List Nat,
      ∀ e ∈ Slice.pick elems ps, K.clean e := by
    intro elems helems ps e he
    obtain ⟨i, -, hget⟩ := List.mem_filterMap.mp he
    exact helems e (List.mem_of_getElem? hget)
  unfold EvalM.slice
  split
  · refine accords_heap_bind fun w hw => ?_
    rw [(recoded hK hw).elems]
    refine (accords_select hK _ _ _ _).bind fun ps _ => ?_
    exact accords_newList hK (hpick (clean_elems hK hw hv) ps)
  · refine (accords_select hK _ _ _ _).bind fun ps _ => ?_
    exact accords_pure (hK.tuple.mpr (hpick (hK.tuple.mp hv) ps))
  · exact (accords_select hK _ _ _ _).bind fun ps _ => accords_pure (hK.atom _)
  · exact accords_fail hK _

theorem accords_sliceArgs {args : List Value} (hargs : ∀ v ∈ args, K.clean v) :
    K.Accords K.clean (EvalM.sliceArgs args) (EvalM.sliceArgs args) := by
  cases args with
  | nil => exact accords_pure (hK.atom _)
  | cons v bounds =>
    have hv := hargs v (by simp)
    refine (accords_checkBounds hK 1 bounds).bind fun _ _ => ?_
    split
    · exact accords_slice hK hv _ _ _
    · exact accords_slice hK hv _ _ _
    · exact accords_slice hK hv _ _ _
    · exact accords_pure (hK.atom _)

theorem accords_splitArgs (args : List Value) :
    K.Accords K.clean (EvalM.splitArgs args) (EvalM.splitArgs args) := by
  unfold EvalM.splitArgs
  split
  · split
    · exact accords_fail hK _
    · refine accords_newList hK fun v hv => ?_
      obtain ⟨piece, -, rfl⟩ := List.mem_map.mp hv
      exact hK.atom _
  · exact accords_fail hK _
  · exact accords_fail hK _
  · exact accords_pure (hK.atom _)

theorem accords_applyStrict (op : StrictOp) {args : List Value} (hargs : ∀ v ∈ args, K.clean v) :
    K.Accords K.clean (EvalM.applyStrict op args) (EvalM.applyStrict op args) := by
  cases op with
  | arith op => exact accords_ofExcept hK fun _ h => Arith.fold_eq_ok hK.atom hargs h
  | list => exact accords_newList hK hargs
  | tuple => exact accords_pure (hK.tuple.mpr hargs)
  | set => exact accords_makeSet hK hargs
  | len => exact accords_totalLength hK _
  | slice => exact accords_sliceArgs hK hargs
  | cat => exact (accords_collect hK hargs).bind fun _ h => accords_newList hK h
  | intoList => exact (accords_collect hK hargs).bind fun _ h => accords_newList hK h
  | intoTuple => exact (accords_collect hK hargs).bind fun _ h => accords_pure (hK.tuple.mpr h)
  | intoDict => exact (accords_collect hK hargs).bind fun _ h => accords_makeDict hK h
  | intoSet => exact (accords_collect hK hargs).bind fun _ h => accords_makeSet hK h
  | str => exact (accords_concat hK args).bind fun _ _ => accords_pure (hK.atom _)
  | kw => exact (accords_concat hK args).bind fun _ _ => accords_pure (hK.atom _)
  | split => exact accords_splitArgs hK _

section

variable {r r' : Recursor} {s : ScopeRef} (hr : r.Accord r' K) (hs : K.own s)
include hr hs

omit hK in
theorem accords_evalAll {cs : List Code} (hcs : ∀ c ∈ cs, K.Runs c) :
    K.Accords (fun vs => ∀ v ∈ vs, K.clean v) (EvalM.evalAll r s cs)
      (EvalM.evalAll r' s (cs.map K.code)) := by
  induction cs with
  | nil =>
    refine accords_pure ?_
    rintro v ⟨⟩
  | cons c cs ih =>
    obtain ⟨hc, hcs⟩ := List.forall_mem_cons.mp hcs
    refine (hr.eval hs hc).bind fun v hv => ?_
    exact (ih hcs).bind fun vs hvs => accords_pure (List.forall_mem_cons.mpr ⟨hv, hvs⟩)

theorem accords_chain (rel : Relation) (left : Value) {cs : List Code}
    (hcs : ∀ c ∈ cs, K.Runs c) :
    K.Accords Anything (EvalM.chain r s rel left cs)
      (EvalM.chain r' s rel left (cs.map K.code)) := by
  induction cs generalizing left with
  | nil => exact accords_pure (anything _)
  | cons c cs ih =>
    obtain ⟨hc, hcs⟩ := List.forall_mem_cons.mp hcs
    refine (hr.eval hs hc).bind fun right _ => ?_
    refine accords_heap_bind fun w hw => ?_
    rw [(recoded hK hw).relate?]
    refine (accords_ofOption_any hK _).bind fun holds _ => ?_
    refine (accords_ofExcept_any hK _).bind fun holds _ => ?_
    split
    · exact ih right hcs
    · exact accords_pure (anything _)

theorem accords_callRelation (rel : Relation) {args : List Code} (hargs : ∀ c ∈ args, K.Runs c) :
    K.Accords K.clean (EvalM.callRelation r rel args s)
      (EvalM.callRelation r' rel (args.map K.code) s) := by
  refine (accords_checkArity hK args _ _).bind fun _ _ => ?_
  cases args with
  | nil => exact accords_pure (hK.atom _)
  | cons c cs =>
    obtain ⟨hc, hcs⟩ := List.forall_mem_cons.mp hargs
    refine (hr.eval hs hc).bind fun left _ => ?_
    exact (accords_chain hK hr hs rel left hcs).bind fun holds _ => accords_pure (hK.atom _)

theorem accords_evalUntil (stop : Bool) {cs : List Code} (hcs : ∀ c ∈ cs, K.Runs c) :
    K.Accords Anything (EvalM.evalUntil r s stop cs)
      (EvalM.evalUntil r' s stop (cs.map K.code)) := by
  induction cs with
  | nil => exact accords_pure (anything _)
  | cons c cs ih =>
    obtain ⟨hc, hcs⟩ := List.forall_mem_cons.mp hcs
    refine (hr.eval hs hc).bind fun v _ => ?_
    refine accords_heap_bind fun w hw => ?_
    rw [(recoded hK hw).truthy]
    split
    · exact accords_pure (anything _)
    · exact ih hcs

omit hK in
theorem accords_allPass (t : TypeTest) {cs : List Code} (hcs : ∀ c ∈ cs, K.Runs c) :
    K.Accords Anything (EvalM.allPass r s t cs) (EvalM.allPass r' s t (cs.map K.code)) := by
  induction cs with
  | nil => exact accords_pure (anything _)
  | cons c cs ih =>
    obtain ⟨hc, hcs⟩ := List.forall_mem_cons.mp hcs
    refine (hr.eval hs hc).bind fun v _ => ?_
    split
    · exact ih hcs
    · exact accords_pure (anything _)

theorem accords_containsAll (col : Value) {cs : List Code} (hcs : ∀ c ∈ cs, K.Runs c) :
    K.Accords Anything (EvalM.containsAll r s col cs)
      (EvalM.containsAll r' s col (cs.map K.code)) := by
  induction cs with
  | nil => exact accords_pure (anything _)
  | cons c cs ih =>
    obtain ⟨hc, hcs⟩ := List.forall_mem_cons.mp hcs
    refine (hr.eval hs hc).bind fun elem _ => ?_
    refine accords_heap_bind fun w hw => ?_
    rw [(recoded hK hw).contains]
    refine (accords_ofOption_any hK _).bind fun found _ => ?_
    refine (accords_ofExcept_any hK _).bind fun found _ => ?_
    split
    · exact ih hcs
    · exact accords_pure (anything _)

theorem accords_callContains {args : List Code} (hargs : ∀ c ∈ args, K.Runs c) :
    K.Accords K.clean (EvalM.callContains r args s) (EvalM.callContains r' (args.map K.code) s) := by
  refine (accords_checkArity hK args _ _).bind fun _ _ => ?_
  cases args with
  | nil => exact accords_pure (hK.atom _)
  | cons c cs =>
    obtain ⟨hc, hcs⟩ := List.forall_mem_cons.mp hargs
    refine (hr.eval hs hc).bind fun col _ => ?_
    exact (accords_containsAll hK hr hs col hcs).bind fun found _ => accords_pure (hK.atom _)

omit hK in
theorem accords_quoteAll {cs : List Code} (hcs : ∀ c ∈ cs, K.Runs c) :
    K.Accords (fun vs => ∀ v ∈ vs, K.clean v) (EvalM.quoteAll r s cs)
      (EvalM.quoteAll r' s (cs.map K.code)) := by
  induction cs with
  | nil =>
    refine accords_pure ?_
    rintro v ⟨⟩
  | cons c cs ih =>
    obtain ⟨hc, hcs⟩ := List.forall_mem_cons.mp hcs
    refine (hr.quote hs hc).bind fun v hv => ?_
    exact (ih hcs).bind fun vs hvs => accords_pure (List.forall_mem_cons.mpr ⟨hv, hvs⟩)

omit hK in
theorem accords_evalSequence {last : Value} (hlast : K.clean last) {cs : List Code}
    (hcs : ∀ c ∈ cs, K.Runs c) :
    K.Accords K.clean (EvalM.evalSequence r s last cs)
      (EvalM.evalSequence r' s last (cs.map K.code)) := by
  induction cs generalizing last with
  | nil => exact accords_pure hlast
  | cons c cs ih =>
    obtain ⟨hc, hcs⟩ := List.forall_mem_cons.mp hcs
    exact (hr.eval hs hc).bind fun v hv => ih hv hcs

theorem accords_callCond {args : List Code} (hargs : ∀ c ∈ args, K.Runs c) :
    K.Accords K.clean (EvalM.callCond r args s) (EvalM.callCond r' (args.map K.code) s) := by
  refine (accords_checkArity hK args _ _).bind fun _ _ => ?_
  match args, hargs with
  | [], _ => exact accords_pure (hK.atom _)
  | [_], _ => exact accords_pure (hK.atom _)
  | c :: yes :: no, hargs =>
    refine (hr.eval hs (hargs c (by simp))).bind fun v _ => ?_
    refine accords_heap_bind fun w hw => ?_
    rw [(recoded hK hw).truthy]
    split
    · exact hr.eval hs (hargs yes (by simp))
    · cases no with
      | nil => exact accords_pure (hK.atom _)
      | cons no rest => exact hr.eval hs (hargs no (by simp))

theorem accords_callDefine {args : List Code} (hargs : ∀ c ∈ args, K.Runs c) :
    K.Accords K.clean (EvalM.callDefine r args s) (EvalM.callDefine r' (args.map K.code) s) := by
  refine (accords_checkArity hK args _ _).bind fun _ _ => ?_
  match args, hargs with
  | [], _ => exact accords_pure (hK.atom _)
  | [_], _ => exact accords_pure (hK.atom _)
  | _ :: _ :: _ :: _, _ => exact accords_pure (hK.atom _)
  | [pattern, c], hargs =>
    refine (hr.eval hs (hargs c (by simp))).bind fun v hv => ?_
    refine (hr.bind hs (hargs pattern (by simp)) (.value hv)).bind fun _ _ => ?_
    exact accords_pure hv

theorem accords_callThread {args : List Code} (hargs : ∀ c ∈ args, K.Runs c) :
    K.Accords K.clean (EvalM.callThread r args s) (EvalM.callThread r' (args.map K.code) s) := by
  refine (accords_checkArity hK args _ _).bind fun _ _ => ?_
  cases args with
  | nil => exact accords_pure (hK.atom _)
  | cons c forms =>
    obtain ⟨hc, hforms⟩ := List.forall_mem_cons.mp hargs
    refine (accords_resolve hK hc).bindAs fun c hc => ?_
    exact (accords_threadForms hK hc.1 hforms).bindAs fun form hform => hr.eval hs hform

omit hK in
theorem accords_evalEach {pattern body : Code} (hpattern : K.Runs pattern) (hbody : K.Runs body)
    {last : Value} (hlast : K.clean last) {places : List Place} (hplaces : ∀ p ∈ places, K.Reads p) :
    K.Accords K.clean (EvalM.evalEach r s pattern body last places)
      (EvalM.evalEach r' s (K.code pattern) (K.code body) last places) := by
  induction places generalizing last with
  | nil => exact accords_pure hlast
  | cons p ps ih =>
    obtain ⟨hp, hps⟩ := List.forall_mem_cons.mp hplaces
    refine (hr.bind hs hpattern hp).bind fun _ _ => ?_
    exact (hr.eval hs hbody).bind fun v hv => ih hv hps

theorem accords_callEach {args : List Code} (hargs : ∀ c ∈ args, K.Runs c) :
    K.Accords K.clean (EvalM.callEach r args s) (EvalM.callEach r' (args.map K.code) s) := by
  refine (accords_checkArity hK args _ _).bind fun _ _ => ?_
  match args, hargs with
  | [], _ => exact accords_pure (hK.atom _)
  | [_], _ => exact accords_pure (hK.atom _)
  | pattern :: c :: body, hargs =>
    obtain ⟨hpattern, hc, hbody⟩ := by simpa using hargs
    refine (accords_resolve hK hpattern).bindAs fun pattern hpattern => ?_
    refine (accords_resolveAll hK hbody).bindAs fun body hbody => ?_
    refine (hr.eval hs hc).bind fun col hcol => ?_
    refine accords_heap_bind fun w hw => ?_
    rw [(recoded hK hw).loopPlaces]
    refine (accords_ofExcept hK fun _ => reads_loopPlaces hK hw hcol).bind fun places hplaces => ?_
    rw [code_bodyOf hK]
    exact accords_evalEach hr hs hpattern.1 (runs_bodyOf hK hbody) (hK.atom _) hplaces

theorem accords_getFrom {col : Value} (hcol : K.clean col) {args : List Code}
    (hargs : ∀ c ∈ args, K.Runs c) :
    K.Accords K.clean (EvalM.getFrom r col args s) (EvalM.getFrom r' col (args.map K.code) s) := by
  refine (accords_checkArity hK args _ _).bind fun _ _ => ?_
  match args, hargs with
  | [], _ => exact accords_pure (hK.atom _)
  | [k], hargs =>
    refine (hr.eval hs (hargs k (by simp))).bind fun key _ => ?_
    refine accords_heap_bind fun w hw => ?_
    rw [(recoded hK hw).index]
    exact accords_ofExcept hK fun _ => clean_index hK hw hcol
  | k :: default :: _, hargs =>
    refine (hr.eval hs (hargs k (by simp))).bind fun key _ => ?_
    refine accords_heap_bind fun w hw => ?_
    rw [(recoded hK hw).hasIndex, (recoded hK hw).index]
    split
    · exact accords_ofExcept hK fun _ => clean_index hK hw hcol
    · exact hr.eval hs (hargs default (by simp))

theorem accords_callGet {args : List Code} (hargs : ∀ c ∈ args, K.Runs c) :
    K.Accords K.clean (EvalM.callGet r args s) (EvalM.callGet r' (args.map K.code) s) := by
  refine (accords_checkArity hK args _ _).bind fun _ _ => ?_
  cases args with
  | nil => exact accords_pure (hK.atom _)
  | cons c rest =>
    obtain ⟨hc, hrest⟩ := List.forall_mem_cons.mp hargs
    exact (hr.eval hs hc).bind fun col hcol => accords_getFrom hK hr hs hcol hrest

omit hr hs in
theorem accords_callIsDefined {args : List Code} (hargs : ∀ c ∈ args, K.Runs c) :
    K.Accords K.clean (EvalM.callIsDefined args s)
      (EvalM.callIsDefined (args.map K.code) s) := by
  refine (accords_symbolNames hK hargs).bind fun names _ => ?_
  refine accords_heap_map fun w hw => ⟨?_, hK.atom _⟩
  rw [(recoded hK hw).lookup]

omit hr hs in
theorem accords_callGetTally {args : List Code} (hargs : ∀ c ∈ args, K.Runs c) :
    K.Accords K.clean (EvalM.callGetTally args) (EvalM.callGetTally (args.map K.code)) := by
  refine (accords_checkArity hK args _ _).bind fun _ _ => ?_
  cases args with
  | nil => exact accords_pure (hK.atom _)
  | cons c rest =>
    have hc := hargs c (by simp)
    refine (accords_symbolOf? hK hc).bind fun name _ => ?_
    cases name with
    | some name =>
      refine Accords.get_bind fun w _ => ?_
      refine (accords_ofExcept hK fun d hd => Store.sound_of_tally hd).bind fun d hd => ?_
      exact accords_thaw hK hd
    | none => exact (accords_codeKind hK hc).bind fun kind _ => accords_fail hK _

omit hr in
theorem accords_removeNames {last : Value} (hlast : K.clean last) (names : List String) :
    K.Accords K.clean (EvalM.removeNames s last names) (EvalM.removeNames s last names) := by
  induction names generalizing last with
  | nil => exact accords_pure hlast
  | cons name names ih =>
    refine accords_heap_bind fun w hw => ?_
    rw [(recoded hK hw).lookup]
    refine (accords_modifyHeap fun _ hw =>
      ⟨hK.recoding.unbind hw s name, hK.unbind name hs hw⟩).bind fun _ _ => ih ?_
    cases hlookup : w.heap.lookup s name with
    | none => exact hK.atom _
    | some v => exact hK.name hw hlookup

omit hr in
theorem accords_makeClosure {pattern body : Code} (hpattern : K.Runs pattern) (hbody : K.Runs body)
    (name : String) :
    K.Accords K.clean (EvalM.makeClosure pattern body s name)
      (EvalM.makeClosure (K.code pattern) (K.code body) s name) := by
  refine (accords_allocate (Q := Anything) fun w hw =>
    ⟨hK.recoding.newClosure w.heap { pattern, body, scope := s, name }, anything _,
      hK.newClosure hpattern hbody hw⟩).bind fun ref _ => ?_
  have hf := hK.closure ref
  split
  · exact (accords_bindName hK hs name hf).bind fun _ _ => accords_pure hf
  · exact accords_pure hf

omit hr in
theorem accords_callFunction {args : List Code} (hargs : ∀ c ∈ args, K.Runs c) :
    K.Accords K.clean (EvalM.callFunction args s) (EvalM.callFunction (args.map K.code) s) := by
  refine (accords_checkArity hK args _ _).bind fun _ _ => ?_
  refine (accords_resolveAll hK hargs).bindAs fun args hargs => ?_
  cases args with
  | nil => exact accords_pure (hK.atom _)
  | cons pattern body =>
    obtain ⟨hpattern, hbody⟩ := List.forall_mem_cons.mp hargs
    refine (accords_checkPattern hK hpattern).bind fun _ _ => ?_
    rw [code_bodyOf hK]
    exact accords_makeClosure hK hs hpattern (runs_bodyOf hK hbody) _

omit hr in
theorem accords_callDefineFunction {args : List Code} (hargs : ∀ c ∈ args, K.Runs c) :
    K.Accords K.clean (EvalM.callDefineFunction args s)
      (EvalM.callDefineFunction (args.map K.code) s) := by
  refine (accords_checkArity hK args _ _).bind fun _ _ => ?_
  refine (accords_resolveAll hK hargs).bindAs fun args hargs => ?_
  match args, hargs with
  | [], _ => exact accords_pure (hK.atom _)
  | [_], _ => exact accords_pure (hK.atom _)
  | name :: pattern :: body, hargs =>
    obtain ⟨hname, hpattern, hbody⟩ := by simpa using hargs
    refine (accords_symbolOf? hK hname).bind fun symbol _ => ?_
    cases symbol with
    | some symbol =>
      refine (accords_checkPattern hK hpattern).bind fun _ _ => ?_
      rw [code_bodyOf hK]
      exact accords_makeClosure hK hs hpattern (runs_bodyOf hK hbody) _
    | none => exact (accords_codeKind hK hname).bind fun kind _ => accords_fail hK _

theorem accords_quoteForm {c : Code} (hc : K.Runs c) :
    K.Accords K.clean (EvalM.quoteStep.quoteForm r s c)
      (EvalM.quoteStep.quoteForm r' s (K.code c)) := by
  refine (accords_formOf? hK hc).bindAs fun form hform => ?_
  have helems : ∀ c ∈ form.getD [], K.Runs c := by
    cases form with
    | none => rintro c ⟨⟩
    | some elems => exact hform elems rfl
  have hcode : (form.map (List.map K.code)).getD [] = (form.getD []).map K.code := by
    cases form <;> rfl
  rw [hcode]
  generalize form.getD [] = elems at helems
  refine (accords_headOf? hK helems).bind fun head _ => ?_
  split
  · rw [List.length_map]
    match elems, helems with
    | [], _ => exact accords_fail hK _
    | [_], _ => exact accords_fail hK _
    | [_, x], helems => exact hr.eval hs (helems x (by simp))
    | _ :: _ :: _ :: _, _ => exact accords_fail hK _
  · exact (accords_quoteAll hr hs helems).bind fun vs hvs => accords_newList hK hvs

theorem accords_quoteStep {c : Code} (hc : K.Runs c) :
    K.Accords K.clean (EvalM.quoteStep r c s) (EvalM.quoteStep r' (K.code c) s) := by
  refine (accords_resolve hK hc).bindAs fun c hc => ?_
  have hquote := accords_quoteForm hK hr hs hc.1
  obtain ⟨v, rfl, hcode⟩ | ⟨r, cs, rfl, hcode⟩ | ⟨cs, rfl, hcode⟩ := code_cases hK hc.1 hc.2
  · rw [hcode] at hquote ⊢
    cases v with
    | list r => exact hquote
    | _ => exact accords_pure (hc.1.of_not_list (by rintro r ⟨⟩))
  · rw [hcode] at hquote ⊢
    exact hquote
  · rw [hcode] at hquote ⊢
    exact hquote

theorem accords_evalEntries {acc : List (Value × Value)} (hacc : ∀ e ∈ acc, K.Entry e)
    {cs : List Code} (hcs : ∀ c ∈ cs, K.Runs c) :
    K.Accords K.clean (EvalM.evalEntries r s acc cs)
      (EvalM.evalEntries r' s acc (cs.map K.code)) := by
  fun_induction EvalM.evalEntries r s acc cs with
  | case1 acc k v rest ih =>
    obtain ⟨hk, hv, hrest⟩ := by simpa using hcs
    refine (hr.eval hs hk).bind fun key hkey => ?_
    refine (hr.eval hs hv).bind fun value hvalue => ?_
    refine accords_heap_bind fun w hw => ?_
    rw [(recoded hK hw).insertEntry]
    refine (accords_ofExcept hK fun acc' hins => ?_).bind fun acc' hacc' => ih acc' hacc' hrest
    exact entry_insertEntry hK hkey hvalue hacc hins
  | case2 cs acc hshort =>
    match cs with
    | [] => exact accords_newDict hK hacc
    | [_] => exact accords_newDict hK hacc
    | k :: v :: rest => exact absurd rfl (hshort k v rest)

theorem accords_literal {entries : List (Value × Value)} (hentries : ∀ e ∈ entries, K.Entry e) :
    K.Accords K.clean
      (EvalM.evalEntries r s [] (entries.flatMap fun e => [.value e.1, .value e.2]))
      (EvalM.evalEntries r' s [] (entries.flatMap fun e => [.value e.1, .value e.2])) := by
  have hvalues : ∀ c ∈ entries.flatMap fun e => [Code.value e.1, Code.value e.2],
      ∃ v, c = .value v ∧ K.clean v := by
    intro c hc
    obtain ⟨e, he, hc⟩ := List.mem_flatMap.mp hc
    obtain ⟨-, hkey, hvalue⟩ := hentries e he
    obtain rfl | rfl : c = .value e.1 ∨ c = .value e.2 := by simpa using hc
    · exact ⟨_, rfl, hkey⟩
    · exact ⟨_, rfl, hvalue⟩
  generalize (entries.flatMap fun e => [Code.value e.1, Code.value e.2]) = codes at hvalues ⊢
  have hcodes : codes.map K.code = codes := by
    refine (List.map_congr_left fun c hc => ?_).trans (List.map_id codes)
    obtain ⟨v, rfl, hv⟩ := hvalues c hc
    exact code_clean hK hv
  have hruns : ∀ c ∈ codes, K.Runs c := by
    intro c hc
    obtain ⟨v, rfl, hv⟩ := hvalues c hc
    exact .value hv
  have hnil : ∀ e ∈ ([] : List (Value × Value)), K.Entry e := by rintro e ⟨⟩
  have heval := accords_evalEntries hK hr hs hnil hruns
  rwa [hcodes] at heval

theorem accords_callDict {args : List Code} (hargs : ∀ c ∈ args, K.Runs c) :
    K.Accords K.clean (EvalM.callDict r args s) (EvalM.callDict r' (args.map K.code) s) := by
  unfold EvalM.callDict
  rw [List.length_map]
  split
  · exact accords_fail hK _
  · refine accords_evalEntries hK hr hs ?_ hargs
    rintro e ⟨⟩

theorem accords_callPut {args : List Code} (hargs : ∀ c ∈ args, K.Runs c) :
    K.Accords K.clean (EvalM.callPut r args s) (EvalM.callPut r' (args.map K.code) s) := by
  refine (accords_checkArity hK args _ _).bind fun _ _ => ?_
  refine (accords_resolveAll hK hargs).bindAs fun args hargs => ?_
  match args, hargs with
  | [], _ => exact accords_pure (hK.atom _)
  | [_], _ => exact accords_pure (hK.atom _)
  | [_, _], _ => exact accords_pure (hK.atom _)
  | _ :: _ :: _ :: _ :: _, _ => exact accords_pure (hK.atom _)
  | [c, k, v], hargs =>
    refine (hr.eval hs (hargs v (by simp))).bind fun value hvalue => ?_
    refine (hr.eval hs (hargs c (by simp))).bind fun col hcol => ?_
    refine (hr.eval hs (hargs k (by simp))).bind fun key hkey => ?_
    refine accords_replaceHeap (Q := Anything) hK K.heap id
      (fun w hw => hK.recoding.put hw col key value) (fun _ => rfl) ?_ fun _ _ => accords_pure hvalue
    exact fun w h hw hput => ⟨anything _, put_holds hK hw hcol hkey hvalue hput⟩

theorem accords_removeKeys {col : Value} (hcol : K.clean col) {last : Value} (hlast : K.clean last)
    {cs : List Code} (hcs : ∀ c ∈ cs, K.Runs c) :
    K.Accords K.clean (EvalM.removeKeys r s col last cs)
      (EvalM.removeKeys r' s col last (cs.map K.code)) := by
  induction cs generalizing last with
  | nil => exact accords_pure hlast
  | cons c cs ih =>
    obtain ⟨hc, hcs⟩ := List.forall_mem_cons.mp hcs
    refine (hr.eval hs hc).bind fun key _ => ?_
    refine accords_replaceHeap (Q := fun removed => K.clean removed.1) hK (Prod.map id K.heap)
      Prod.snd (fun w hw => hK.recoding.remove hw col key) (fun _ => rfl) ?_ fun removed hlast => ih hlast hcs
    exact fun w removed hw hremove => remove_holds hK hw hcol hremove

theorem accords_callDel {args : List Code} (hargs : ∀ c ∈ args, K.Runs c) :
    K.Accords K.clean (EvalM.callDel r args s) (EvalM.callDel r' (args.map K.code) s) := by
  refine (accords_checkArity hK args _ _).bind fun _ _ => ?_
  cases args with
  | nil => exact accords_pure (hK.atom _)
  | cons c ks =>
    obtain ⟨hc, hks⟩ := List.forall_mem_cons.mp hargs
    exact (hr.eval hs hc).bind fun col hcol => accords_removeKeys hK hr hs hcol (hK.atom _) hks

theorem accords_callProbe {last : Value} (hlast : K.clean last) {cs : List Code}
    (hcs : ∀ c ∈ cs, K.Runs c) :
    K.Accords K.clean (EvalM.callProbe r s last cs)
      (EvalM.callProbe r' s last (cs.map K.code)) := by
  induction cs generalizing last with
  | nil => exact accords_pure hlast
  | cons c cs ih =>
    obtain ⟨hc, hcs⟩ := List.forall_mem_cons.mp hcs
    refine (hr.eval hs hc).bind fun v hv => ?_
    refine (accords_datum hK v).bind fun d _ => ?_
    exact (accords_note hK _).bind fun _ _ => ih hv hcs

omit hr hs in
theorem accords_removeMembers {wanted members : List Value} (hmembers : ∀ v ∈ members, K.Member v) :
    K.Accords (fun rest => ∀ v ∈ rest, K.Member v) (EvalM.removeMembers wanted members)
      (EvalM.removeMembers wanted members) := by
  induction wanted generalizing members with
  | nil => exact accords_pure hmembers
  | cons v wanted ih =>
    refine accords_heap_bind fun w hw => ?_
    rw [(recoded hK hw).sameKey]
    split
    · exact ih fun u hu => hmembers u (List.mem_of_mem_eraseP hu)
    · exact (accords_datum hK v).bind fun d _ => accords_fail hK _

omit hK in
theorem accords_bindEach {ps : List Code} (hps : ∀ p ∈ ps, K.Runs p) {places : List Place}
    (hplaces : ∀ p ∈ places, K.Reads p) :
    K.Accords Anything (EvalM.bindEach r s ps places)
      (EvalM.bindEach r' s (ps.map K.code) places) := by
  induction ps generalizing places with
  | nil => exact accords_pure (anything _)
  | cons p ps ih =>
    cases places with
    | nil => exact accords_pure (anything _)
    | cons v vs =>
      obtain ⟨hp, hps⟩ := List.forall_mem_cons.mp hps
      obtain ⟨hv, hvs⟩ := List.forall_mem_cons.mp hplaces
      exact (hr.bind hs hp hv).bind fun _ _ => ih hps hvs

theorem accords_bindElems {ps : List Code} (hps : ∀ p ∈ ps, K.Runs p) {places : List Place}
    (hplaces : ∀ p ∈ places, K.Reads p) :
    K.Accords Anything (EvalM.bindElems r s ps places)
      (EvalM.bindElems r' s (ps.map K.code) places) := by
  unfold EvalM.bindElems
  rw [List.length_map]
  split
  · exact accords_bindEach hr hs hps hplaces
  · exact accords_fail hK _

theorem accords_bindEntries {patterns : List (Value × Code)} (hpatterns : ∀ p ∈ patterns, K.Runs p.2)
    {entries : List (Value × Value)} (hentries : ∀ e ∈ entries, K.Entry e) :
    K.Accords (fun rest => ∀ e ∈ rest, K.Entry e) (EvalM.bindEntries r s patterns entries)
      (EvalM.bindEntries r' s (patterns.map (Prod.map id K.code)) entries) := by
  induction patterns generalizing entries with
  | nil => exact accords_pure hentries
  | cons pattern patterns ih =>
    obtain ⟨hpattern, hpatterns⟩ := List.forall_mem_cons.mp hpatterns
    refine accords_heap_bind fun w hw => ?_
    rw [(recoded hK hw).findEntry, (recoded hK hw).sameKey]
    dsimp only [Prod.map, id]
    cases hfind : w.heap.findEntry entries pattern.1 with
    | none => exact (accords_datum hK pattern.1).bind fun d _ => accords_fail hK _
    | some v =>
      refine (hr.bind hs hpattern (.value (clean_findEntry hentries hfind))).bind fun _ _ => ?_
      exact ih hpatterns (entry_erase hentries)

omit hr hs hK in
theorem map_insertEntry (h : Heap) (k : Value) (p : Code) (acc : List (Value × Code)) :
    h.insertEntry k (K.code p) (acc.map (Prod.map id K.code)) =
      (h.insertEntry k p acc).map (List.map (Prod.map id K.code)) := by
  unfold Heap.insertEntry
  split
  · exact congrArg Except.ok (Keyed.insert_map (m := Prod.map id K.code) (fun _ => rfl) k p)
  · rfl

theorem accords_dictPattern {elems : List Code} (helems : ∀ c ∈ elems, K.Runs c) :
    K.AccordsAs (List.map (Prod.map id K.code)) (fun patterns => ∀ p ∈ patterns, K.Runs p.2)
      (EvalM.dictPattern r s elems) (EvalM.dictPattern r' s (elems.map K.code)) := by
  have hcollect (acc : List (Value × Code)) (cs : List Code) (hacc : ∀ p ∈ acc, K.Runs p.2)
      (hcs : ∀ c ∈ cs, K.Runs c) :
      K.AccordsAs (List.map (Prod.map id K.code)) (fun patterns => ∀ p ∈ patterns, K.Runs p.2)
        (EvalM.dictPattern.collect r s acc cs)
        (EvalM.dictPattern.collect r' s (acc.map (Prod.map id K.code)) (cs.map K.code)) := by
    fun_induction EvalM.dictPattern.collect r s acc cs with
    | case1 acc k p rest ih =>
      obtain ⟨hk, hp, hrest⟩ := by simpa using hcs
      refine (hr.eval hs hk).bind fun key _ => ?_
      refine (accords_resolve hK hp).bindAs fun p hp => ?_
      refine accords_heap_bind fun w hw => ?_
      rw [(recoded hK hw).insertEntry, map_insertEntry]
      refine (accords_ofExceptAs hK fun acc' hins => ?_).bindAs fun acc' hacc' => ih acc' hacc' hrest
      intro e he
      rcases (Heap.insertEntry_eq_ok hins).2 e he with rfl | he
      · exact hp.1
      · exact hacc e he
    | case2 cs acc hshort =>
      have hsort : K.AccordsAs (List.map (Prod.map id K.code)) (fun patterns => ∀ p ∈ patterns, K.Runs p.2)
          (do return (← EvalM.heap).sortEntries acc)
          (do return (← EvalM.heap).sortEntries (acc.map (Prod.map id K.code))) := by
        refine accords_heap_bind fun w hw => ?_
        rw [(recoded hK hw).sortEntries]
        refine Accords.pureAs (Keyed.ranked_map (fun _ => rfl) acc) fun p hp => ?_
        exact hacc p (Keyed.mem_ranked.mp hp)
      match cs with
      | [] => exact hsort
      | [_] => exact hsort
      | k :: p :: rest => exact absurd rfl (hshort k p rest)
  unfold EvalM.dictPattern
  rw [List.length_map]
  split
  · exact accords_fail hK _
  · refine hcollect [] elems ?_ helems
    rintro p ⟨⟩

theorem accords_setPattern {elems : List Code} (helems : ∀ c ∈ elems, K.Runs c) :
    K.Accords Anything (EvalM.setPattern r s elems)
      (EvalM.setPattern r' s (elems.map K.code)) := by
  have hcollect : ∀ acc,
      K.Accords Anything (EvalM.setPattern.collect r s acc elems)
        (EvalM.setPattern.collect r' s acc (elems.map K.code)) := by
    induction elems with
    | nil =>
      intro acc
      refine accords_heap_map fun w hw => ⟨?_, anything _⟩
      rw [(recoded hK hw).sortMembers]
    | cons c cs ih =>
      intro acc
      obtain ⟨hc, hcs⟩ := List.forall_mem_cons.mp helems
      refine (hr.eval hs hc).bind fun v _ => ?_
      refine accords_heap_bind fun w hw => ?_
      rw [(recoded hK hw).insertMember]
      exact (accords_ofExcept_any hK _).bind fun acc _ => ih hcs acc
  exact hcollect []

theorem accords_bindLiteral {pattern : Code} (hpattern : K.Runs pattern) (v : Value) :
    K.Accords Anything (EvalM.bindLiteral r s pattern v)
      (EvalM.bindLiteral r' s (K.code pattern) v) := by
  refine (hr.eval hs hpattern).bind fun want _ => ?_
  refine accords_heap_bind fun w hw => ?_
  rw [(recoded hK hw).equal?]
  refine (accords_ofOption_any hK _).bind fun same _ => ?_
  split
  · exact accords_pure (anything _)
  · refine (accords_datum hK want).bind fun d _ => ?_
    exact (accords_datum hK v).bind fun d' _ => accords_fail hK _

theorem accords_bindPlain (b : Bracket) {elems : List Code} (helems : ∀ c ∈ elems, K.Runs c)
    {v : Value} (hv : K.clean v) :
    K.Accords Anything (EvalM.bindPlain r s b elems v)
      (EvalM.bindPlain r' s b (elems.map K.code) v) := by
  unfold EvalM.bindPlain
  split
  · refine accords_heap_bind fun w hw => ?_
    rw [(recoded hK hw).places]
    exact accords_bindElems hK hr hs helems (reads_places hv _)
  · exact accords_bindElems hK hr hs helems (reads_values (hK.tuple.mp hv))
  · refine (accords_dictPattern hK hr hs helems).bindAs fun patterns hpatterns => ?_
    refine accords_heap_bind fun w hw => ?_
    rw [(recoded hK hw).entries, List.length_map]
    dsimp only
    split
    · exact (accords_bindEntries hK hr hs hpatterns (hK.entries hw _)).bind fun _ _ =>
        accords_pure (anything _)
    · exact accords_fail hK _
  · refine (accords_setPattern hK hr hs helems).bind fun wanted _ => ?_
    refine accords_heap_bind fun w hw => ?_
    rw [(recoded hK hw).members]
    dsimp only
    split
    · exact (accords_removeMembers hK (hK.members hw _)).bind fun _ _ => accords_pure (anything _)
    · exact accords_fail hK _
  · exact accords_fail hK _

omit hr hs in
theorem accords_restOf (b : Bracket) {places : List Place} (hplaces : ∀ p ∈ places, K.Reads p) :
    K.Accords K.clean (EvalM.restOf b places) (EvalM.restOf b places) := by
  refine accords_heap_bind fun w hw => ?_
  have hvs : ∀ v ∈ places.map w.heap.read, K.clean v := by
    intro v hv
    obtain ⟨p, hp, rfl⟩ := List.mem_map.mp hv
    exact clean_read hK hw (hplaces p hp)
  rw [(recoded hK hw).read]
  dsimp only
  split
  · exact accords_pure (hK.tuple.mpr hvs)
  · exact accords_newList hK hvs

theorem accords_bindSpreadSeq (b : Bracket) {chunks : List Code} (hchunks : ∀ c ∈ chunks, K.Runs c)
    {places : List Place} (hplaces : ∀ p ∈ places, K.Reads p) :
    K.Accords Anything (EvalM.bindSpreadSeq r s b chunks places)
      (EvalM.bindSpreadSeq r' s b (chunks.map K.code) places) := by
  induction chunks generalizing places with
  | nil => exact accords_pure (anything _)
  | cons chunk chunks ih =>
    obtain ⟨hchunk, hchunks⟩ := List.forall_mem_cons.mp hchunks
    refine (accords_taggedForm? hK _ hchunk).bindAs fun elems helems => ?_
    cases elems with
    | some elems =>
      dsimp only [Option.map]
      rw [List.length_map]
      split
      · exact accords_fail hK _
      · refine (accords_bindElems hK hr hs (helems _ rfl) fun p hp => ?_).bind fun _ _ => ?_
        · exact hplaces p (List.mem_of_mem_take hp)
        · exact ih hchunks fun p hp => hplaces p (List.mem_of_mem_drop hp)
    | none =>
      refine (accords_restOf hK b hplaces).bind fun rest hrest => ?_
      refine (hr.bind hs hchunk (.value hrest)).bind fun _ _ => ih hchunks ?_
      rintro p ⟨⟩

theorem accords_bindSpreadDict {chunks : List Code} (hchunks : ∀ c ∈ chunks, K.Runs c)
    {entries : List (Value × Value)} (hentries : ∀ e ∈ entries, K.Entry e) :
    K.Accords Anything (EvalM.bindSpreadDict r s chunks entries)
      (EvalM.bindSpreadDict r' s (chunks.map K.code) entries) := by
  induction chunks generalizing entries with
  | nil => exact accords_pure (anything _)
  | cons chunk chunks ih =>
    obtain ⟨hchunk, hchunks⟩ := List.forall_mem_cons.mp hchunks
    refine (accords_taggedForm? hK _ hchunk).bindAs fun elems helems => ?_
    cases elems with
    | some elems =>
      refine (accords_dictPattern hK hr hs (helems _ rfl)).bindAs fun patterns hpatterns => ?_
      exact (accords_bindEntries hK hr hs hpatterns hentries).bind fun rest hrest => ih hchunks hrest
    | none =>
      refine (accords_newDict hK hentries).bind fun rest hrest => ?_
      refine (hr.bind hs hchunk (.value hrest)).bind fun _ _ => ih hchunks ?_
      rintro e ⟨⟩

theorem accords_bindSpreadSet {chunks : List Code} (hchunks : ∀ c ∈ chunks, K.Runs c)
    {members : List Value} (hmembers : ∀ v ∈ members, K.Member v) :
    K.Accords Anything (EvalM.bindSpreadSet r s chunks members)
      (EvalM.bindSpreadSet r' s (chunks.map K.code) members) := by
  induction chunks generalizing members with
  | nil => exact accords_pure (anything _)
  | cons chunk chunks ih =>
    obtain ⟨hchunk, hchunks⟩ := List.forall_mem_cons.mp hchunks
    refine (accords_taggedForm? hK _ hchunk).bindAs fun elems helems => ?_
    cases elems with
    | some elems =>
      refine (accords_setPattern hK hr hs (helems _ rfl)).bind fun wanted _ => ?_
      exact (accords_removeMembers hK hmembers).bind fun rest hrest => ih hchunks hrest
    | none =>
      refine (accords_newSet hK hmembers).bind fun rest hrest => ?_
      refine (hr.bind hs hchunk (.value hrest)).bind fun _ _ => ih hchunks ?_
      rintro v ⟨⟩

theorem accords_bindSpread (b : Bracket) {chunks : List Code} (hchunks : ∀ c ∈ chunks, K.Runs c)
    {v : Value} (hv : K.clean v) :
    K.Accords Anything (EvalM.bindSpread r s b chunks v)
      (EvalM.bindSpread r' s b (chunks.map K.code) v) := by
  unfold EvalM.bindSpread
  split
  · refine accords_heap_bind fun w hw => ?_
    rw [(recoded hK hw).places]
    exact accords_bindSpreadSeq hK hr hs _ hchunks (reads_places hv _)
  · exact accords_bindSpreadSeq hK hr hs _ hchunks (reads_values (hK.tuple.mp hv))
  · refine accords_heap_bind fun w hw => ?_
    rw [(recoded hK hw).entries]
    exact accords_bindSpreadDict hK hr hs hchunks (hK.entries hw _)
  · refine accords_heap_bind fun w hw => ?_
    rw [(recoded hK hw).members]
    exact accords_bindSpreadSet hK hr hs hchunks (hK.members hw _)
  · exact accords_fail hK _

def bindForm (r : Recursor) (s : ScopeRef) (pattern : Code) (v : Value) : EvalM Unit := do
  match ← EvalM.formOf? pattern with
  | none => EvalM.bindLiteral r s pattern v
  | some elems =>
    match ← EvalM.headOf? elems with
    | none => EvalM.bindLiteral r s pattern v
    | some head =>
      match Bracket.ofTag? head, Bracket.ofIntoTag? head with
      | some b, _ => EvalM.bindPlain r s b (elems.drop 1) v
      | none, some b => EvalM.bindSpread r s b (elems.drop 1) v
      | none, none => EvalM.bindLiteral r s pattern v

theorem accords_bindForm {pattern : Code} (hpattern : K.Runs pattern) {v : Value} (hv : K.clean v) :
    K.Accords Anything (bindForm r s pattern v) (bindForm r' s (K.code pattern) v) := by
  refine (accords_formOf? hK hpattern).bindAs fun elems helems => ?_
  cases elems with
  | none => exact accords_bindLiteral hK hr hs hpattern _
  | some elems =>
    refine (accords_headOf? hK (helems _ rfl)).bind fun head _ => ?_
    have htail : ∀ c ∈ List.drop 1 elems, K.Runs c := fun c hc =>
      helems _ rfl c (List.mem_of_mem_drop hc)
    cases head with
    | none => exact accords_bindLiteral hK hr hs hpattern _
    | some head =>
      dsimp only
      rw [← List.map_drop]
      split
      · exact accords_bindPlain hK hr hs _ htail hv
      · exact accords_bindSpread hK hr hs _ htail hv
      · exact accords_bindLiteral hK hr hs hpattern _

theorem accords_bindStep {pattern : Code} (hpattern : K.Runs pattern) {place : Place}
    (hplace : K.Reads place) :
    K.Accords Anything (EvalM.bindStep r pattern place s)
      (EvalM.bindStep r' (K.code pattern) place s) := by
  refine (accords_read hK hplace).bind fun v hv => ?_
  refine (accords_resolve hK hpattern).bindAs fun pattern hpattern => ?_
  have hform := accords_bindForm hK hr hs hpattern.1 hv
  obtain ⟨u, rfl, hcode⟩ | ⟨r, cs, rfl, hcode⟩ | ⟨cs, rfl, hcode⟩ :=
    code_cases hK hpattern.1 hpattern.2
  · rw [hcode] at hform ⊢
    split
    · split
      · exact accords_pure (anything _)
      · exact accords_bindName hK hs _ hv
    · exact hform
  · rw [hcode] at hform ⊢
    exact hform
  · rw [hcode] at hform ⊢
    exact hform

theorem accords_callBuiltin (b : Builtin) {args : List Code} (hargs : ∀ c ∈ args, K.Runs c) :
    K.Accords K.clean (EvalM.callBuiltin r b args s)
      (EvalM.callBuiltin r' b (args.map K.code) s) := by
  cases b with
  | quote =>
    refine (accords_checkArity hK args _ _).bind fun _ _ => ?_
    cases args with
    | nil => exact accords_pure (hK.atom _)
    | cons c rest => exact hr.quote hs (hargs c (by simp))
  | eval =>
    refine (accords_checkArity hK args _ _).bind fun _ _ => ?_
    cases args with
    | nil => exact accords_pure (hK.atom _)
    | cons c rest =>
      refine (hr.eval hs (hargs c (by simp))).bind fun v hv => ?_
      have heval := hr.eval hs (.value hv)
      rwa [code_clean hK hv] at heval
  | sequence => exact accords_evalSequence hr hs (hK.atom _) hargs
  | cond => exact accords_callCond hK hr hs hargs
  | and => exact (accords_evalUntil hK hr hs _ hargs).bind fun _ _ => accords_pure (hK.atom _)
  | or => exact (accords_evalUntil hK hr hs _ hargs).bind fun _ _ => accords_pure (hK.atom _)
  | not => exact (accords_evalUntil hK hr hs _ hargs).bind fun _ _ => accords_pure (hK.atom _)
  | define => exact accords_callDefine hK hr hs hargs
  | undefine =>
    exact (accords_symbolNames hK hargs).bind fun names _ =>
      accords_removeNames hK hs (hK.atom _) names
  | isDefined => exact accords_callIsDefined hK hargs
  | function => exact accords_callFunction hK hs hargs
  | defineFunction => exact accords_callDefineFunction hK hs hargs
  | thread => exact accords_callThread hK hr hs hargs
  | each => exact accords_callEach hK hr hs hargs
  | dict => exact accords_callDict hK hr hs hargs
  | contains => exact accords_callContains hK hr hs hargs
  | get => exact accords_callGet hK hr hs hargs
  | put => exact accords_callPut hK hr hs hargs
  | del => exact accords_callDel hK hr hs hargs
  | strict op =>
    refine (accords_checkArity hK args _ _).bind fun _ _ => ?_
    exact (accords_evalAll hr hs hargs).bind fun vs hvs => accords_applyStrict hK op hvs
  | relation rel => exact accords_callRelation hK hr hs rel hargs
  | test t negated =>
    exact (accords_allPass hr hs t hargs).bind fun _ _ => accords_pure (hK.atom _)
  | getTally => exact accords_callGetTally hK hargs
  | probe => exact accords_callProbe hK hr hs (hK.atom _) hargs
  | raise => exact accords_fail hK _

theorem accords_body {f : Closure} (hpattern : K.Runs f.pattern) (hbody : K.Runs f.body)
    {args : List Value} (hargs : ∀ v ∈ args, K.clean v) :
    K.Accords K.clean
      (do
        let list ← EvalM.newList args
        r.bind f.pattern (.value list) s
        r.eval f.body s)
      (do
        let list ← EvalM.newList args
        r'.bind (K.code f.pattern) (.value list) s
        r'.eval (K.code f.body) s) := by
  refine (accords_newList hK hargs).bind fun list hlist => ?_
  refine (hr.bind hs hpattern (.value hlist)).bind fun _ _ => ?_
  exact hr.eval hs hbody

theorem accords_formCalling {call call' : Value → List Code → EvalM Value}
    (hcall : ∀ {v args}, K.clean v → (∀ c ∈ args, K.Runs c) →
      K.Accords K.clean (call v args) (call' v (args.map K.code))) {c : Code} (hc : K.Runs c) :
    K.Accords K.clean (EvalM.formCalling call r c s) (EvalM.formCalling call' r' (K.code c) s) := by
  refine (accords_formOf? hK hc).bindAs fun form hform => ?_
  match form, hform with
  | none, _ => exact accords_fail hK _
  | some [], _ => exact accords_fail hK _
  | some (head :: _), hform =>
    refine (hr.eval hs (hform _ rfl head (by simp))).bind fun v hv => ?_
    refine (accords_formOf? hK hc).bindAs fun form hform => ?_
    match form, hform with
    | none, _ => exact Accords.throw hK.crash
    | some [], _ => exact Accords.throw hK.crash
    | some (_ :: args), hform => exact hcall hv (List.forall_mem_cons.mp (hform _ rfl)).2

theorem accords_stepCalling {call call' : Value → List Code → EvalM Value}
    (hcall : ∀ {v args}, K.clean v → (∀ c ∈ args, K.Runs c) →
      K.Accords K.clean (call v args) (call' v (args.map K.code))) {c : Code} (hc : K.Runs c) :
    K.Accords K.clean (EvalM.stepCalling call r c s) (EvalM.stepCalling call' r' (K.code c) s) := by
  refine (accords_resolve hK hc).bindAs fun c hc => ?_
  have hform := accords_formCalling hK hr hs hcall hc.1
  obtain ⟨v, rfl, hcode⟩ | ⟨r, cs, rfl, hcode⟩ | ⟨cs, rfl, hcode⟩ := code_cases hK hc.1 hc.2
  · rw [hcode] at hform ⊢
    cases v with
    | list r => exact hform
    | dict d =>
      refine accords_heap_bind fun w hw => ?_
      rw [(recoded hK hw).entries, (recoded hK hw).sortEntries]
      exact accords_literal hK hr hs fun e he => hK.entries hw d e (Keyed.mem_ranked.mp he)
    | atom a =>
      cases a with
      | sym name =>
        refine accords_heap_bind fun w hw => ?_
        rw [(recoded hK hw).lookup]
        cases hlookup : w.heap.lookup s name with
        | some v => exact accords_pure (hK.name hw hlookup)
        | none => exact accords_fail hK _
      | _ => exact accords_pure (hK.atom _)
    | _ => exact accords_pure (hc.1.of_not_list (by rintro r ⟨⟩))
  · rw [hcode] at hform ⊢
    exact hform
  · rw [hcode] at hform ⊢
    exact hform

end

section

variable (hframe : K.Framed) {r r' : Recursor} (hr : r.Accord r' K)
include hframe hr

theorem accords_applyClosure (ref : ClosureRef) {args : List Value} (hargs : ∀ v ∈ args, K.clean v) :
    K.Accords K.clean (EvalM.applyClosure r ref args) (EvalM.applyClosure r' ref args) := by
  refine accords_heap_bind fun w hw => ?_
  rw [code_closure hK]
  refine (accords_newScope hK _).bind fun scope hscope => accords_withFrame hframe _ ?_
  obtain ⟨hpattern, hbody⟩ := hK.body hw ref
  exact accords_body hK hr hscope hpattern hbody hargs

theorem accords_callHead {s : ScopeRef} (hs : K.own s) {head : Value} (hhead : K.clean head)
    {args : List Code} (hargs : ∀ c ∈ args, K.Runs c) :
    K.Accords K.clean (EvalM.callHead r head args s)
      (EvalM.callHead r' head (args.map K.code) s) := by
  unfold EvalM.callHead
  split
  · exact accords_withFrame hframe _ (accords_callBuiltin hK hr hs _ hargs)
  · exact (accords_evalAll hr hs hargs).bind fun vs hvs => accords_applyClosure hK hframe hr _ hvs
  · exact accords_withFrame hframe _ (accords_getFrom hK hr hs hhead hargs)
  · exact accords_withFrame hframe _ (accords_getFrom hK hr hs hhead hargs)
  · exact accords_withFrame hframe _ (accords_getFrom hK hr hs hhead hargs)
  · exact accords_fail hK _

end

variable (hframe : K.Framed)
include hframe

theorem accord_succ {m n : Nat} (h : (EvalM.recursor m).Accord (EvalM.recursor n) K) :
    (EvalM.recursor (m + 1)).Accord (EvalM.recursor (n + 1)) K where
  eval := fun hs hc => accords_stepCalling hK h hs
    (fun hv hargs => accords_callHead hK hframe h hs hv hargs) hc
  bind := fun hs hpattern hplace => accords_bindStep hK h hs hpattern hplace
  quote := fun hs hc => accords_quoteStep hK h hs hc

theorem accord_self (fuel : Nat) : (EvalM.recursor fuel).Accord (EvalM.recursor fuel) K := by
  induction fuel with
  | zero =>
    constructor
    · exact fun _ _ => Accords.throw hK.exhaust
    · exact fun _ _ _ => Accords.throw hK.exhaust
    · exact fun _ _ => Accords.throw hK.exhaust
  | succ fuel ih => exact accord_succ hK hframe ih

theorem accord_of_le (hstop : K.stops .exhausted) {m n : Nat} (hle : m ≤ n) :
    (EvalM.recursor m).Accord (EvalM.recursor n) K := by
  induction m generalizing n with
  | zero =>
    constructor
    · exact fun _ _ => Accords.stop hstop
    · exact fun _ _ _ => Accords.stop hstop
    · exact fun _ _ => Accords.stop hstop
  | succ m ih =>
    obtain ⟨n, rfl⟩ := Nat.exists_eq_succ_of_ne_zero (by omega : n ≠ 0)
    exact accord_succ hK hframe (ih (by omega))

end

end Contract

end EventTally
