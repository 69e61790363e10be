import EventTally.Proofs.Eval.Contract
import EventTally.Proofs.Renaming.Operations

/-! # Computations side by side

Two computations go side by side if related states lead to related states, and results or faults to
related ones. The first computation bounds what has to be shown: only a run that ends within a given
limit is followed, and only until it meets a fault that stops the comparison.

For evaluations the second heap holds an image of the first one. The limit is the size of the heap in
which the first evaluation ends, since the renaming is fixed for objects up to that size. The two worlds
may differ in the accumulators with unknown names, and the comparison stops where the first evaluation
asks for one of those.
-/

namespace EventTally

/-- What is compared in two computations: states within a limit, which pairs of them are related, the
faults of the first computation that stop the comparison, and which pairs of faults are related. -/
structure Link (σ ε : Type) where
  limit : σ → Prop
  rel : σ → σ → Prop
  stops : ε → Prop
  faults : ε → ε → Prop

variable {σ ε α β γ δ : Type}

/-- `y` does what `x` does, with `g` of its result, if `x` ends within the limit. A run that ends within
the limit also begins there. -/
def Simulates (L : Link σ ε) (g : α → β) (x : ExceptT ε (StateM σ) α) (y : ExceptT ε (StateM σ) β) :
    Prop :=
  ∀ s, L.limit (x.run s).2 → L.limit s ∧ ∀ s', L.rel s s' →
    (∃ e, (x.run s).1 = .error e ∧ L.stops e) ∨
      L.rel (x.run s).2 (y.run s').2 ∧
        Matched (fun a b => b = g a) L.faults (x.run s).1 (y.run s').1

/-- A run that ends within the limit begins there. -/
def Bounded (L : Link σ ε) (x : ExceptT ε (StateM σ) α) : Prop := ∀ s, L.limit (x.run s).2 → L.limit s

theorem Bounded.bind {L : Link σ ε} {x : ExceptT ε (StateM σ) α} {f : α → ExceptT ε (StateM σ) γ}
    (hx : Bounded L x) (hf : ∀ a, Bounded L (f a)) : Bounded L (x >>= f) := by
  intro s hlimit
  have hfirst := hx s
  rw [run_bind] at hlimit
  rcases hrun : x.run s with ⟨e | a, t⟩
  · rw [hrun] at hlimit hfirst
    exact hfirst hlimit
  · rw [hrun] at hlimit hfirst
    exact hfirst (hf a t hlimit)

namespace Simulates

variable {L : Link σ ε} {g : α → β} {k : γ → δ}

theorem bounded {x : ExceptT ε (StateM σ) α} {y : ExceptT ε (StateM σ) β} (h : Simulates L g x y) :
    Bounded L x :=
  fun s hlimit => (h s hlimit).1

theorem pure {a : α} {b : β} (h : b = g a) : Simulates L g (Pure.pure a) (Pure.pure b) :=
  fun _ hlimit => ⟨hlimit, fun _ hrel => .inr ⟨hrel, h⟩⟩

theorem throw {e e' : ε} (h : L.faults e e') : Simulates L g (throw e) (throw e') :=
  fun _ hlimit => ⟨hlimit, fun _ hrel => .inr ⟨hrel, h⟩⟩

theorem bind {x : ExceptT ε (StateM σ) α} {y : ExceptT ε (StateM σ) β} (hxy : Simulates L g x y)
    {f : α → ExceptT ε (StateM σ) γ} {f' : β → ExceptT ε (StateM σ) δ}
    (hf : ∀ a, Simulates L k (f a) (f' (g a))) : Simulates L k (x >>= f) (y >>= f') := by
  intro s hlimit
  rw [run_bind] at hlimit ⊢
  have hfirst := hxy s
  rcases hrun : x.run s with ⟨e | a, t⟩
  · rw [hrun] at hlimit hfirst
    obtain ⟨hbefore, hfirst⟩ := hfirst hlimit
    refine ⟨hbefore, fun s' hrel => ?_⟩
    rw [run_bind]
    obtain hstop | ⟨hrel', hmatch⟩ := hfirst s' hrel
    · obtain ⟨_, ⟨⟩, hstop⟩ := hstop
      exact .inl ⟨e, rfl, hstop⟩
    · rcases hrun' : y.run s' with ⟨e' | b, t'⟩
      · rw [hrun'] at hrel' hmatch
        exact .inr ⟨hrel', hmatch⟩
      · rw [hrun'] at hmatch
        cases hmatch
  · rw [hrun] at hlimit hfirst
    obtain ⟨hmid, hnext⟩ := hf a t hlimit
    obtain ⟨hbefore, hfirst⟩ := hfirst hmid
    refine ⟨hbefore, fun s' hrel => ?_⟩
    rw [run_bind]
    obtain hstop | ⟨hrel', hmatch⟩ := hfirst s' hrel
    · obtain ⟨_, ⟨⟩, -⟩ := hstop
    · rcases hrun' : y.run s' with ⟨e' | b, t'⟩
      · rw [hrun'] at hmatch
        cases hmatch
      · rw [hrun'] at hrel' hmatch
        obtain rfl : b = g a := hmatch
        exact hnext t' hrel'

theorem map {x : ExceptT ε (StateM σ) α} {y : ExceptT ε (StateM σ) β} (hxy : Simulates L g x y)
    {f : α → γ} {f' : β → δ} (hf : ∀ a, f' (g a) = k (f a)) :
    Simulates L k (x >>= fun a => Pure.pure (f a)) (y >>= fun b => Pure.pure (f' b)) :=
  hxy.bind fun a => Simulates.pure (hf a)

theorem tryCatch {x : ExceptT ε (StateM σ) α} {y : ExceptT ε (StateM σ) β} (hxy : Simulates L g x y)
    {handle handle' : ε → ε}
    (hhandle : ∀ e e', L.faults e e' → L.faults (handle e) (handle' e'))
    (hstops : ∀ e, L.stops e → L.stops (handle e)) :
    Simulates L g (tryCatch x fun e => MonadExcept.throw (handle e))
      (tryCatch y fun e => MonadExcept.throw (handle' e)) := by
  intro s hlimit
  rw [run_tryCatch] at hlimit ⊢
  have hfirst := hxy s
  rcases hrun : x.run s with ⟨e | a, t⟩
  · rw [hrun] at hlimit hfirst
    obtain ⟨hbefore, hfirst⟩ := hfirst hlimit
    refine ⟨hbefore, fun s' hrel => ?_⟩
    rw [run_tryCatch]
    obtain hstop | ⟨hrel', hmatch⟩ := hfirst s' hrel
    · obtain ⟨_, ⟨⟩, hstop⟩ := hstop
      exact .inl ⟨handle e, rfl, hstops e hstop⟩
    · rcases hrun' : y.run s' with ⟨e' | b, t'⟩
      · rw [hrun'] at hrel' hmatch
        exact .inr ⟨hrel', hhandle e e' hmatch⟩
      · rw [hrun'] at hmatch
        cases hmatch
  · rw [hrun] at hlimit hfirst
    obtain ⟨hbefore, hfirst⟩ := hfirst hlimit
    refine ⟨hbefore, fun s' hrel => ?_⟩
    rw [run_tryCatch]
    obtain hstop | ⟨hrel', hmatch⟩ := hfirst s' hrel
    · obtain ⟨_, ⟨⟩, -⟩ := hstop
    · rcases hrun' : y.run s' with ⟨e' | b, t'⟩
      · rw [hrun'] at hmatch
        cases hmatch
      · rw [hrun'] at hrel' hmatch
        exact .inr ⟨hrel', hmatch⟩

theorem get_bind {f : σ → ExceptT ε (StateM σ) α} {f' : σ → ExceptT ε (StateM σ) β}
    (hbound : ∀ s, Bounded L (f s)) (hf : ∀ s s', L.rel s s' → Simulates L g (f s) (f' s')) :
    Simulates L g (get >>= f) (get >>= f') :=
  fun s hlimit => ⟨hbound s s hlimit, fun s' hrel => (hf s s' hrel s hlimit).2 s' hrel⟩

end Simulates

/-- The evaluation asks for an accumulator that is not there. -/
def Fault.Lacks : Fault → Prop
  | .raised e => e.reason = .noSuchTally
  | _ => False

/-- The same fault, but for the identities of functions in a key. -/
inductive Fault.Alike (κ : Nat → Nat) : Fault → Fault → Prop
  | raised {r r' : Reason} (h : r.Alike κ r') (trace : List String) :
    Alike κ (.raised { reason := r, trace }) (.raised { reason := r', trace })
  | crashed : Alike κ .crashed .crashed
  | exhausted : Alike κ .exhausted .exhausted

theorem Fault.Alike.refl {κ : Nat → Nat} (f : Fault) : f.Alike κ f := by
  cases f with
  | raised e => exact .raised (.same e.reason) e.trace
  | crashed => exact .crashed
  | exhausted => exact .exhausted

/-- An evaluation and another one in a heap that holds an image: the renaming, the heap in which the
first evaluation ends, the heap and the journals with which they begin, and the names of the
accumulators that both find. -/
structure Pairing where
  ρ : Renaming
  final : Heap
  old : Heap
  before : List String
  before' : List String
  knows : String → Prop

namespace Pairing

variable (P : Pairing)

/-- Accumulators with known names are the same in both stores, and the first one has no others. -/
structure Stores (s s' : Store) : Prop where
  known : ∀ name, P.knows name → s'.tallyText? name = s.tallyText? name
  others : ∀ name, ¬ P.knows name → s.tallyText? name = none

/-- The heap of the second world holds an image of that of the first, and the same texts have been
noted in both. -/
structure Worlds (w w' : World) : Prop where
  image : Heap.Image P.ρ P.final P.old w.heap w'.heap
  stores : P.Stores w.store w'.store
  noted : ∃ texts, w.journal = texts ++ P.before ∧ w'.journal = texts ++ P.before'

/-- The comparison of evaluations, which stops where the first one asks for an accumulator that is not
known. -/
def worlds : Link World Fault where
  limit w := w.heap.Within P.final
  rel := P.Worlds
  stops f := f.Lacks ∧ ∃ name, ¬ P.knows name
  faults := Fault.Alike P.ρ.closures

/-- The second evaluation does what the first one does. -/
abbrev Mirrors (g : α → β) (x : EvalM α) (y : EvalM β) : Prop := Simulates P.worlds g x y

end Pairing

namespace EvalM

variable {P : Pairing} {g : α → β} {k : γ → δ}

theorem mirrors_pure (a : α) : P.Mirrors g (pure a) (pure (g a)) := Simulates.pure rfl

theorem mirrors_same (a : α) : P.Mirrors id (pure a) (pure a) := Simulates.pure rfl

theorem mirrors_throw (f : Fault) : P.Mirrors g (throw f) (throw f) := Simulates.throw (.refl f)

theorem mirrors_fail (r : Reason) : P.Mirrors g (fail r) (fail r) :=
  Simulates.throw (.raised (.same r) [])

theorem mirrors_ofExcept {x : Except Reason α} {y : Except Reason β}
    (h : Parallel P.ρ.closures g x y) :
    P.Mirrors g (ofExcept x) (ofExcept y) := by
  cases x with
  | ok a =>
    cases y with
    | ok b => exact Simulates.pure h
    | error r => cases h
  | error r =>
    cases y with
    | ok b => cases h
    | error r' => exact Simulates.throw (.raised h [])

theorem mirrors_ofExcept_same (x : Except Reason α) : P.Mirrors id (ofExcept x) (ofExcept x) := by
  cases x with
  | ok a => exact mirrors_same a
  | error r => exact mirrors_fail r

theorem bounded_ofExcept (x : Except Reason α) : Bounded P.worlds (ofExcept x) := by
  cases x <;> exact fun _ hlimit => hlimit

theorem mirrors_ofOption {x : Option α} {y : Option β} (h : y = x.map g) :
    P.Mirrors g (ofOption x) (ofOption y) := by
  subst h
  cases x with
  | some a => exact mirrors_pure a
  | none => exact mirrors_throw .exhausted

theorem bounded_ofOption (x : Option α) : Bounded P.worlds (ofOption x) := by
  cases x <;> exact fun _ hlimit => hlimit

theorem mirrors_withFrame (name : String) {x : EvalM α} {y : EvalM β} (hxy : P.Mirrors g x y) :
    P.Mirrors g (withFrame name x) (withFrame name y) := by
  rw [withFrame_eq, withFrame_eq]
  refine hxy.tryCatch (fun e e' h => ?_) fun f hf => ?_
  · cases h with
    | raised h trace => exact .raised h (name :: trace)
    | crashed => exact .crashed
    | exhausted => exact .exhausted
  · cases f with
    | raised e => exact hf
    | crashed => exact hf
    | exhausted => exact hf

theorem mirrors_heap_bind {f : Heap → EvalM α} {f' : Heap → EvalM β}
    (hbound : ∀ h, Bounded P.worlds (f h))
    (hf : ∀ h h', Heap.Image P.ρ P.final P.old h h' → P.Mirrors g (f h) (f' h')) :
    P.Mirrors g (heap >>= f) (heap >>= f') :=
  Simulates.get_bind (L := P.worlds) (fun w => hbound w.heap) fun w w' hrel =>
    hf w.heap w'.heap hrel.image

theorem mirrors_read {m : γ → δ} {p : Heap → γ} {q : Heap → δ} {f : γ → EvalM α} {f' : δ → EvalM β}
    (hp : ∀ h h', Heap.Image P.ρ P.final P.old h h' → q h' = m (p h))
    (hf : ∀ c, P.Mirrors g (f c) (f' (m c))) :
    P.Mirrors g (heap >>= fun h => f (p h)) (heap >>= fun h => f' (q h)) := by
  refine mirrors_heap_bind (fun h => (hf (p h)).bounded) fun h h' himage => ?_
  rw [hp h h' himage]
  exact hf (p h)

theorem mirrors_heap_map {m : γ → δ} {p : Heap → γ} {p' : Heap → δ}
    (hp : ∀ h h', Heap.Image P.ρ P.final P.old h h' → p' h' = m (p h)) :
    P.Mirrors m (do return p (← heap)) (do return p' (← heap)) := by
  refine mirrors_heap_bind (fun _ _ hlimit => hlimit) fun h h' himage => ?_
  rw [hp h h' himage]
  exact mirrors_pure (p h)

theorem mirrors_attempt {m : γ → δ} {p : Heap → Except Reason γ} {p' : Heap → Except Reason δ}
    (hp : ∀ h h', Heap.Image P.ρ P.final P.old h h' → Parallel P.ρ.closures m (p h) (p' h'))
    {f : γ → EvalM α} {f' : δ → EvalM β} (hf : ∀ c, P.Mirrors g (f c) (f' (m c))) :
    P.Mirrors g (heap >>= fun h => ofExcept (p h) >>= f)
      (heap >>= fun h => ofExcept (p' h) >>= f') := by
  refine mirrors_heap_bind (fun h => ?_) fun h h' himage => ?_
  · exact (bounded_ofExcept _).bind fun c => (hf c).bounded
  · exact (mirrors_ofExcept (hp h h' himage)).bind hf

theorem mirrors_examine {m : γ → δ} {p : Heap → Option γ} {p' : Heap → Option δ}
    (hp : ∀ h h', Heap.Image P.ρ P.final P.old h h' → p' h' = (p h).map m)
    {f : γ → EvalM α} {f' : δ → EvalM β} (hf : ∀ c, P.Mirrors g (f c) (f' (m c))) :
    P.Mirrors g (heap >>= fun h => ofOption (p h) >>= f)
      (heap >>= fun h => ofOption (p' h) >>= f') := by
  refine mirrors_heap_bind (fun h => ?_) fun h h' himage => ?_
  · exact (bounded_ofOption _).bind fun c => (hf c).bounded
  · exact (mirrors_ofOption (hp h h' himage)).bind hf

theorem mirrors_datum (v : Value) :
    P.Mirrors (Datum.rename P.ρ.closures) (datum v) (datum (P.ρ.value v)) :=
  mirrors_heap_bind (fun _ => bounded_ofOption _) fun _ _ himage => mirrors_ofOption (himage.datum? v)

theorem mirrors_codeDatum (c : Code) :
    P.Mirrors (Datum.rename P.ρ.closures) (codeDatum c) (codeDatum (P.ρ.code c)) :=
  mirrors_heap_bind (fun _ => bounded_ofOption _) fun _ _ himage =>
    mirrors_ofOption (himage.codeDatum? c)

theorem mirrors_datum_fail (v : Value) (r : String → Reason) :
    P.Mirrors g (do fail (r (← datum v).plain)) (do fail (r (← datum (P.ρ.value v)).plain)) := by
  refine (mirrors_datum v).bind fun d => ?_
  rw [Datum.plain_rename]
  exact mirrors_fail _

theorem mirrors_heap_ofExcept {m : γ → δ} {p : Heap → Except Reason γ} {p' : Heap → Except Reason δ}
    (hp : ∀ h h', Heap.Image P.ρ P.final P.old h h' → Parallel P.ρ.closures m (p h) (p' h')) :
    P.Mirrors m (heap >>= fun h => ofExcept (p h)) (heap >>= fun h => ofExcept (p' h)) :=
  mirrors_heap_bind (fun h => bounded_ofExcept (p h)) fun h h' himage =>
    mirrors_ofExcept (hp h h' himage)

theorem mirrors_modifyHeap {f f' : Heap → Heap}
    (hbound : ∀ h, (f h).Within P.final → h.Within P.final)
    (hf : ∀ h h', Heap.Image P.ρ P.final P.old h h' → Heap.Image P.ρ P.final P.old (f h) (f' h')) :
    P.Mirrors id (modifyHeap f) (modifyHeap f') :=
  fun w hlimit => ⟨hbound w.heap hlimit, fun w' hrel =>
    .inr ⟨⟨hf w.heap w'.heap hrel.image, hrel.stores, hrel.noted⟩, rfl⟩⟩

theorem mirrors_allocate {make : Heap → α × Heap} {make' : Heap → β × Heap}
    (hmake : Heap.Makes P.ρ P.final P.old g make make') :
    P.Mirrors g (allocate make) (allocate make') := by
  intro w hlimit
  obtain ⟨hbefore, hmade⟩ := hmake w.heap hlimit
  refine ⟨hbefore, fun w' hrel => .inr ?_⟩
  obtain ⟨himage, hresult⟩ := hmade w'.heap hrel.image
  exact ⟨⟨himage, hrel.stores, hrel.noted⟩, hresult⟩

theorem mirrors_newList (vs : List Value) :
    P.Mirrors P.ρ.value (newList vs) (newList (vs.map P.ρ.value)) :=
  (mirrors_allocate (Heap.makes_newList vs)).map fun _ => rfl

theorem mirrors_newDict (es : List (Value × Value)) :
    P.Mirrors P.ρ.value (newDict es) (newDict (es.map P.ρ.entry)) :=
  (mirrors_allocate (Heap.makes_newDict es)).map fun _ => rfl

theorem mirrors_newSet (vs : List Value) :
    P.Mirrors P.ρ.value (newSet vs) (newSet (vs.map P.ρ.value)) :=
  (mirrors_allocate (Heap.makes_newSet vs)).map fun _ => rfl

theorem mirrors_newScope (s : ScopeRef) :
    P.Mirrors P.ρ.scope (newScope s) (newScope (P.ρ.scope s)) :=
  mirrors_allocate (Heap.makes_child s)

theorem mirrors_bindName (s : ScopeRef) (name : String) (v : Value) :
    P.Mirrors id (bindName s name v) (bindName (P.ρ.scope s) name (P.ρ.value v)) :=
  mirrors_modifyHeap (fun _ hwithin => hwithin.of_bind) fun _ _ himage => himage.bind s name v

theorem mirrors_bindAll (s : ScopeRef) (bindings : List (String × Value)) :
    P.Mirrors id (modifyHeap (·.bindAll s bindings))
      (modifyHeap (·.bindAll (P.ρ.scope s) (bindings.map P.ρ.binding))) :=
  mirrors_modifyHeap (fun _ hwithin => hwithin.of_bindAll) fun _ _ himage => himage.bindAll s bindings

theorem mirrors_thaw {d : Datum} (hd : d.Inert) : P.Mirrors P.ρ.value (thaw d) (thaw d) :=
  mirrors_allocate (Heap.makes_thaw hd)

theorem mirrors_note (text : String) : P.Mirrors id (note text) (note text) := by
  refine fun w hlimit => ⟨hlimit, fun w' hrel => .inr ⟨⟨hrel.image, hrel.stores, ?_⟩, rfl⟩⟩
  obtain ⟨texts, hnoted, hnoted'⟩ := hrel.noted
  exact ⟨text :: texts, congrArg (text :: ·) hnoted, congrArg (text :: ·) hnoted'⟩

theorem mirrors_replaceHeap {change : Heap → Except Reason γ} {change' : Heap → Except Reason δ}
    {fresh : γ → Heap} {fresh' : δ → Heap} {next : γ → EvalM α} {next' : δ → EvalM β}
    {R : γ → δ → Prop}
    (hbound : ∀ h c, change h = .ok c → (fresh c).Within P.final → h.Within P.final)
    (hchange : ∀ h h', Heap.Image P.ρ P.final P.old h h' →
      Matched (fun c c' => R c c' ∧ Heap.Image P.ρ P.final P.old (fresh c) (fresh' c'))
        (Reason.Alike P.ρ.closures) (change h) (change' h'))
    (hboundNext : ∀ c, Bounded P.worlds (next c))
    (hnext : ∀ c c', R c c' → P.Mirrors g (next c) (next' c')) :
    P.Mirrors g (do
      let c ← ofExcept (change (← heap))
      modifyHeap fun _ => fresh c
      next c) (do
      let c ← ofExcept (change' (← heap))
      modifyHeap fun _ => fresh' c
      next' c) := by
  have hrun {γ α : Type} (change : Heap → Except Reason γ) (fresh : γ → Heap) (next : γ → EvalM α)
      (w : World) : ExceptT.run (do
        let c ← ofExcept (change (← heap))
        modifyHeap fun _ => fresh c
        next c) w =
      ((ofExcept (change w.heap) : EvalM γ) >>= fun c =>
        modifyHeap (fun _ => fresh c) >>= fun _ => next c).run w := rfl
  intro w hlimit
  rw [hrun] at hlimit ⊢
  cases hc : change w.heap with
  | error r =>
    rw [hc] at hlimit
    refine ⟨hlimit, fun w' hrel => .inr ?_⟩
    have hmatch := hchange w.heap w'.heap hrel.image
    rw [hrun]
    cases hc' : change' w'.heap with
    | error r' =>
      rw [hc, hc'] at hmatch
      exact ⟨hrel, .raised hmatch []⟩
    | ok c' =>
      rw [hc, hc'] at hmatch
      cases hmatch
  | ok c =>
    rw [hc] at hlimit
    refine ⟨hbound _ c hc (hboundNext c _ hlimit), fun w' hrel => ?_⟩
    have hmatch := hchange w.heap w'.heap hrel.image
    rw [hrun]
    cases hc' : change' w'.heap with
    | error r' =>
      rw [hc, hc'] at hmatch
      cases hmatch
    | ok c' =>
      rw [hc, hc'] at hmatch
      exact (hnext c c' hmatch.1 _ hlimit).2 { w' with heap := fresh' c' } ⟨hmatch.2, hrel.stores, hrel.noted⟩

end EvalM

end EventTally
