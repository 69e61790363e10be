import EventTally.Proofs.Eval.Harmless
import EventTally.Proofs.Heap.Edits
import EventTally.Proofs.Pattern.Embedded

/-! # Matching by parts

Matching a literal matches its elements and evaluates its keys and members. What each of these steps
keeps, the whole match keeps (`keeps_bindPlain`, `keeps_bindSpread`); a spread is matched against a
collection that was just made.
-/

namespace EventTally.EvalM

open Heap (NewSince Harmless)

variable {h : Heap} {s : ScopeRef} {bs : List Builtin} {c : Code} {cs : List Code} {r : Recursor}
  {n : Nat}

/-- The part of a match that comes after the pattern has been looked up and is no symbol. -/
def bindForm (r : Recursor) (s : ScopeRef) (pattern : Code) (v : Value) : EvalM Unit := do
  match ← formOf? pattern with
  | none => bindLiteral r s pattern v
  | some elems =>
    match ← headOf? elems with
    | none => bindLiteral r s pattern v
    | some head =>
      match Bracket.ofTag? head, Bracket.ofIntoTag? head with
      | some b, _ => bindPlain r s b (elems.drop 1) v
      | none, some b => bindSpread r s b (elems.drop 1) v
      | none, none => bindLiteral r s pattern v

theorem bindStep_run (r : Recursor) (pattern : Code) (place : Place) (s : ScopeRef) (w : World) :
    (bindStep r pattern place s).run w = (match w.heap.symbol? pattern with
      | some x => if x = "_" then pure () else bindName s x (w.heap.read place)
      | none => bindForm r s (w.heap.resolved pattern) (w.heap.read place)).run w := by
  have hread : (read place).run w = (.ok (w.heap.read place), w) := rfl
  rw [bindStep, run_bind, hread]
  dsimp only
  rw [run_bind, resolve_run]
  unfold Heap.symbol?
  cases w.heap.resolved pattern with
  | value v =>
    cases v with
    | atom a => cases a <;> rfl
    | _ => rfl
  | form elems => rfl
  | slot r i => rfl

/-- The steps of matching the elements of a literal. -/
structure Parts (I : World → Prop) (h : Heap) (r : Recursor) (s : ScopeRef) (b : Bracket)
    (cs : List Code) : Prop where
  codes : ∀ c ∈ cs, h.HasCode c
  elements : b = .list ∨ b = .tuple → ∀ c ∈ cs, ∀ place, Keeps I Anything Anything (r.bind c place s)
  keys : b = .dict → ∀ e ∈ Heap.pairs cs, Keeps I Anything Anything (r.eval e.1 s)
  values : b = .dict → ∀ e ∈ Heap.pairs cs, ∀ place,
    Keeps I Anything Anything (r.bind (h.resolved e.2) place s)
  members : b = .set → ∀ c ∈ cs, Keeps I Anything Anything (r.eval c s)

/-- The step makes a new collection and does nothing else. -/
def Makes (make : EvalM Value) : Prop :=
  ∀ w, ∃ u h', make.run w = (.ok u, { w with heap := h' }) ∧ w.heap.Extends h' ∧
    h'.layers = w.heap.layers ∧ NewSince w.heap h' u

theorem makes_newList (vs : List Value) : Makes (newList vs) := fun w =>
  ⟨_, _, rfl, .newList w.heap vs, rfl, .list (Nat.le_refl _) (by simp)⟩

theorem makes_newDict (es : List (Value × Value)) : Makes (newDict es) := fun w =>
  ⟨_, _, rfl, .newDict w.heap es, rfl, .dict (Nat.le_refl _) (by simp)⟩

theorem makes_newSet (vs : List Value) : Makes (newSet vs) := fun w =>
  ⟨_, _, rfl, .newSet w.heap vs, rfl, .set (Nat.le_refl _) (by simp)⟩

theorem makes_restOf (b : Bracket) (places : List Place) : Makes (restOf b places) := by
  intro w
  have hheap : heap.run w = (.ok w.heap, w) := rfl
  rw [restOf, run_bind, hheap]
  dsimp only
  split
  · exact ⟨_, _, rfl, .refl _, rfl, .tuple _⟩
  · exact makes_newList _ w

section

variable {I : World → Prop} (hI : Shelter h bs s I)
include hI

theorem Makes.keeps {make : EvalM Value} (hmake : Makes make) : Keeps I Anything Anything make := by
  intro w hw
  obtain ⟨u, h', hrun, hext, hlayers, -⟩ := hmake w
  rw [hrun]
  exact ⟨hI.add hw hext hlayers, trivial⟩

theorem Shelter.symbol? (hcode : h.HasCode c) (hw : I w) : w.heap.symbol? c = h.symbol? c :=
  (hI.grown hw).symbol? hcode

theorem Shelter.taggedForm? (hcode : h.HasCode c) (tag : String) :
    (∃ cs, h.Tagged tag c cs ∧ ∀ w, I w → (taggedForm? tag c).run w = (.ok (some cs), w)) ∨
      (∀ cs, ¬ h.Tagged tag c cs) ∧ ∀ w, I w → (taggedForm? tag c).run w = (.ok none, w) := by
  have hrun (w : World) (hw : I w) : (EvalM.taggedForm? tag c).run w =
      (.ok ((h.form? c).bind fun cs => if h.head? cs = some tag then some (cs.drop 1) else none), w) := by
    rw [EvalM.taggedForm?, run_bind, hI.formOf? hcode w hw]
    cases hform : h.form? c with
    | none => rfl
    | some cs =>
      dsimp only
      rw [run_bind, hI.headOf? (hcode.of_form hI.closed hform) w hw]
      rfl
  cases hform : h.form? c with
  | none =>
    refine .inr ⟨?_, fun w hw => ?_⟩
    · rintro cs ⟨hd, htagged, -⟩
      cases hform.symm.trans htagged
    · rw [hrun w hw, hform]
      rfl
  | some cs =>
    by_cases hhead : h.head? cs = some tag
    · cases cs with
      | nil => cases hhead
      | cons hd cs =>
        refine .inl ⟨cs, ⟨hd, hform, hhead⟩, fun w hw => ?_⟩
        rw [hrun w hw, hform, Option.bind_some, if_pos hhead]
        rfl
    · refine .inr ⟨?_, fun w hw => ?_⟩
      · rintro cs' ⟨hd, htagged, hhd⟩
        cases hform.symm.trans htagged
        exact hhead hhd
      · rw [hrun w hw, hform, Option.bind_some, if_neg hhead]

omit hI in
theorem keeps_bindEach {places : List Place}
    (hcs : ∀ c ∈ cs, ∀ place, Keeps I Anything Anything (r.bind c place s)) :
    Keeps I Anything Anything (bindEach r s cs places) := by
  fun_induction bindEach r s cs places with
  | case1 p ps v vs ih =>
    obtain ⟨hp, hps⟩ := List.forall_mem_cons.mp hcs
    exact (hp v).bind fun _ _ => ih hps
  | case2 => exact Keeps.pure trivial

omit hI in
theorem keeps_bindElems {places : List Place}
    (hcs : ∀ c ∈ cs, ∀ place, Keeps I Anything Anything (r.bind c place s)) :
    Keeps I Anything Anything (bindElems r s cs places) := by
  unfold bindElems
  split
  · exact keeps_bindEach hcs
  · exact keeps_fail _

theorem keeps_dictPattern (hparts : Parts I h r s .dict cs) :
    Keeps I Anything (fun ps => ∀ e ∈ ps, ∀ place, Keeps I Anything Anything (r.bind e.2 place s))
      (dictPattern r s cs) := by
  have hcollect : ∀ (acc : List (Value × Code)) (cs : List Code), (∀ c ∈ cs, h.HasCode c) →
      (∀ e ∈ Heap.pairs cs, Keeps I Anything Anything (r.eval e.1 s) ∧
        ∀ place, Keeps I Anything Anything (r.bind (h.resolved e.2) place s)) →
      (∀ e ∈ acc, ∀ place, Keeps I Anything Anything (r.bind e.2 place s)) →
      Keeps I Anything (fun ps => ∀ e ∈ ps, ∀ place, Keeps I Anything Anything (r.bind e.2 place s))
        (dictPattern.collect r s acc cs) := by
    intro acc cs hcodes hpairs hacc
    fun_induction dictPattern.collect r s acc cs with
    | case1 acc k p rest ih =>
      obtain ⟨⟨hk, hp⟩, hrest⟩ := List.forall_mem_cons.mp hpairs
      refine hk.bind fun key _ => keeps_read (hI.resolve (hcodes p (by simp))) ?_
      refine keeps_heap fun w _ => (keeps_ofExcept _).bind fun acc' hinsert => ?_
      refine ih acc' (fun c hc => hcodes c (by simp [hc])) hrest ?_
      intro e he
      rcases (Heap.insertEntry_eq_ok hinsert).2 e he with rfl | he
      · exact hp
      · exact hacc e he
    | case2 => exact keeps_heap fun w _ => Keeps.pure fun e he => hacc e (Keyed.mem_ranked.mp he)
  unfold dictPattern
  split
  · exact keeps_fail _
  · refine hcollect [] cs hparts.codes (fun e he => ⟨hparts.keys rfl e he, hparts.values rfl e he⟩) ?_
    exact List.forall_mem_nil _

omit hI in
theorem keeps_bindEntries {patterns : List (Value × Code)} {entries : List (Value × Value)}
    (hpatterns : ∀ e ∈ patterns, ∀ place, Keeps I Anything Anything (r.bind e.2 place s)) :
    Keeps I Anything Anything (bindEntries r s patterns entries) := by
  induction patterns generalizing entries with
  | nil => exact Keeps.pure trivial
  | cons e patterns ih =>
    obtain ⟨he, hpatterns⟩ := List.forall_mem_cons.mp hpatterns
    refine keeps_heap fun w _ => ?_
    split
    · exact (keeps_datum _).bind fun _ _ => keeps_fail _
    · exact (he _).bind fun _ _ => ih hpatterns

omit hI in
theorem keeps_setPattern (hcs : ∀ c ∈ cs, Keeps I Anything Anything (r.eval c s)) :
    Keeps I Anything Anything (setPattern r s cs) := by
  have hcollect : ∀ acc, Keeps I Anything Anything (setPattern.collect r s acc cs) := by
    induction cs with
    | nil => exact fun _ => keeps_heap fun w _ => Keeps.pure trivial
    | cons c cs ih =>
      obtain ⟨hc, hcs⟩ := List.forall_mem_cons.mp hcs
      refine fun acc => hc.bind fun v _ => keeps_heap fun w _ => ?_
      exact (keeps_ofExcept _).bind fun acc _ => ih hcs acc
  exact hcollect []

omit hI in
theorem keeps_removeMembers (wanted members : List Value) :
    Keeps I Anything Anything (removeMembers wanted members) := by
  induction wanted generalizing members with
  | nil => exact Keeps.pure trivial
  | cons v wanted ih =>
    refine keeps_heap fun w _ => ?_
    split
    · exact ih _
    · exact (keeps_datum v).bind fun _ _ => keeps_fail _

theorem keeps_bindPlain {b : Bracket} (hparts : Parts I h r s b cs) (v : Value) :
    Keeps I Anything Anything (bindPlain r s b cs v) := by
  have hmismatch (b : Bracket) (v : Value) : Keeps I Anything Anything (wrongKind b v : EvalM Unit) :=
    keeps_fail _
  unfold bindPlain
  split
  · exact keeps_heap fun w _ => keeps_bindElems (hparts.elements (.inl rfl))
  · exact keeps_bindElems (hparts.elements (.inr rfl))
  · refine (keeps_dictPattern hI hparts).bind fun patterns hpatterns => keeps_heap fun w _ => ?_
    dsimp only
    split
    · exact (keeps_bindEntries hpatterns).bind fun _ _ => Keeps.pure trivial
    · exact keeps_fail _
  · refine (keeps_setPattern (hparts.members rfl)).bind fun wanted _ => keeps_heap fun w _ => ?_
    dsimp only
    split
    · exact (keeps_removeMembers wanted _).bind fun _ _ => Keeps.pure trivial
    · exact keeps_fail _
  · exact hmismatch _ _

/-- The steps of matching a chunk: its parts if it has the tag, else what is done with a new
collection. -/
structure Chunk (I : World → Prop) (h : Heap) (r : Recursor) (s : ScopeRef) (b : Bracket) (c : Code) :
    Prop where
  code : h.HasCode c
  parts : ∀ cs, h.Tagged b.tag c cs → Parts I h r s b cs
  spread : ∀ make, Makes make → Keeps I Anything Anything (make >>= fun u => r.bind c (.value u) s)

omit hI in
theorem Chunk.keeps_rest {b : Bracket} (hc : Chunk I h r s b c) {make : EvalM Value}
    (hmake : Makes make) {rest : EvalM Unit} (hrest : Keeps I Anything Anything rest) :
    Keeps I Anything Anything (make >>= fun u => r.bind c (.value u) s >>= fun _ => rest) := by
  have h := (hc.spread make hmake).bind fun _ _ => hrest
  rwa [bind_assoc] at h

theorem keeps_bindSpreadSeq {b : Bracket} (hb : b = .list ∨ b = .tuple) {chunks : List Code}
    (hchunks : ∀ c ∈ chunks, Chunk I h r s b c) (places : List Place) :
    Keeps I Anything Anything (bindSpreadSeq r s b chunks places) := by
  induction chunks generalizing places with
  | nil => exact Keeps.pure trivial
  | cons c chunks ih =>
    obtain ⟨hc, hchunks⟩ := List.forall_mem_cons.mp hchunks
    rcases hI.taggedForm? hc.code b.tag with ⟨cs, htagged, hrun⟩ | ⟨-, hrun⟩
    · refine keeps_read hrun ?_
      dsimp only
      split
      · exact keeps_fail _
      · exact (keeps_bindElems ((hc.parts cs htagged).elements hb)).bind fun _ _ => ih hchunks _
    · exact keeps_read hrun (hc.keeps_rest (makes_restOf b places) (ih hchunks []))

theorem keeps_bindSpreadDict {chunks : List Code} (hchunks : ∀ c ∈ chunks, Chunk I h r s .dict c)
    (entries : List (Value × Value)) :
    Keeps I Anything Anything (bindSpreadDict r s chunks entries) := by
  induction chunks generalizing entries with
  | nil => exact Keeps.pure trivial
  | cons c chunks ih =>
    obtain ⟨hc, hchunks⟩ := List.forall_mem_cons.mp hchunks
    rcases hI.taggedForm? hc.code "dict" with ⟨cs, htagged, hrun⟩ | ⟨-, hrun⟩
    · refine keeps_read hrun ((keeps_dictPattern hI (hc.parts cs htagged)).bind fun ps hps => ?_)
      exact (keeps_bindEntries hps).bind fun rest _ => ih hchunks rest
    · exact keeps_read hrun (hc.keeps_rest (makes_newDict entries) (ih hchunks []))

theorem keeps_bindSpreadSet {chunks : List Code} (hchunks : ∀ c ∈ chunks, Chunk I h r s .set c)
    (members : List Value) : Keeps I Anything Anything (bindSpreadSet r s chunks members) := by
  induction chunks generalizing members with
  | nil => exact Keeps.pure trivial
  | cons c chunks ih =>
    obtain ⟨hc, hchunks⟩ := List.forall_mem_cons.mp hchunks
    rcases hI.taggedForm? hc.code "set" with ⟨cs, htagged, hrun⟩ | ⟨-, hrun⟩
    · refine keeps_read hrun ((keeps_setPattern ((hc.parts cs htagged).members rfl)).bind
        fun wanted _ => ?_)
      exact (keeps_removeMembers wanted members).bind fun rest _ => ih hchunks rest
    · exact keeps_read hrun (hc.keeps_rest (makes_newSet members) (ih hchunks []))

theorem keeps_bindSpread {b : Bracket} {chunks : List Code}
    (hchunks : ∀ c ∈ chunks, Chunk I h r s b c) (v : Value) :
    Keeps I Anything Anything (bindSpread r s b chunks v) := by
  have hmismatch (b : Bracket) (v : Value) : Keeps I Anything Anything (wrongKind b v : EvalM Unit) :=
    keeps_fail _
  unfold bindSpread
  split
  · exact keeps_heap fun w _ => keeps_bindSpreadSeq hI (.inl rfl) hchunks _
  · exact keeps_bindSpreadSeq hI (.inr rfl) hchunks _
  · exact keeps_heap fun w _ => keeps_bindSpreadDict hI hchunks _
  · exact keeps_heap fun w _ => keeps_bindSpreadSet hI hchunks _
  · exact hmismatch _ _

theorem keeps_bindLiteral (hcode : h.HasCode c) (hc : h.Harmless bs c) (v : Value) :
    Keeps I Anything Anything (bindLiteral (recursor n) s c v) := by
  refine (hI.eval hcode hc).bind fun want _ => keeps_heap fun w _ => (keeps_ofOption _).bind fun same _ => ?_
  split
  · exact Keeps.pure trivial
  · exact (keeps_datum want).bind fun _ _ => (keeps_datum v).bind fun _ _ => keeps_fail _

theorem keeps_bind_resolved (hcode : h.HasCode c)
    (hbind : ∀ place, Keeps I Anything Anything ((recursor n).bind c place s)) (place : Place) :
    Keeps I Anything Anything ((recursor n).bind (h.resolved c) place s) := by
  intro w hw
  have hresolved : w.heap.resolved c = h.resolved c := (hI.grown hw).resolved hcode
  have hrun : ((recursor n).bind (h.resolved c) place s).run w =
      ((recursor n).bind c place s).run w := by
    cases n with
    | zero => rfl
    | succ n =>
      change (bindStep _ _ _ _).run w = (bindStep _ _ _ _).run w
      rw [bindStep_run, bindStep_run, Heap.symbol?, Heap.symbol?, ← hresolved,
        Heap.resolved_resolved]
  rw [hrun]
  exact hbind place w hw

end

end EventTally.EvalM
