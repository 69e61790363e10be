import EventTally.Tally.Basic

/-! # Invariants of computations

Evaluations and the work of tallies are computations on a state that may fail, and a failure keeps
the state. `Keeps I E Q act` says that `act` leads from states in `I` to states in `I` whether it
fails or not, that its faults are in `E` and its results in `Q`. `Accords θ I T E g Q x y` says that
two computations do the same up to their faults, unless the first one gives up: the second one works
on `θ` of the states of the first and comes to `g` of its result. The rules follow the constructions
that computations are made of.
-/

namespace EventTally

variable {ε σ α β : Type}

def Anything {α : Type} : α → Prop := fun _ => True

def Within (E : ε → Prop) (Q : α → Prop) : Except ε α → Prop
  | .ok a => Q a
  | .error e => E e

def Keeps (I : σ → Prop) (E : ε → Prop) (Q : α → Prop) (act : ExceptT ε (StateM σ) α) : Prop :=
  ∀ s, I s → I (act.run s).2 ∧ Within E Q (act.run s).1

theorem anything {α : Type} (a : α) : Anything a := trivial

theorem run_bind (x : ExceptT ε (StateM σ) α) (f : α → ExceptT ε (StateM σ) β) (s : σ) :
    (x >>= f).run s = match x.run s with
      | (.ok a, s') => (f a).run s'
      | (.error e, s') => (.error e, s') := by
  change (ExceptT.bindCont f (x.run s).1).run (x.run s).2 = _
  rcases x.run s with ⟨_ | a, s'⟩ <;> rfl

theorem run_bind_ok {x : ExceptT ε (StateM σ) α} {f : α → ExceptT ε (StateM σ) β} {s s' : σ} {b : β} :
    (x >>= f).run s = (.ok b, s') ↔ ∃ a s₁, x.run s = (.ok a, s₁) ∧ (f a).run s₁ = (.ok b, s') := by
  rw [run_bind]
  rcases x.run s with ⟨e | a, s₁⟩
  · refine iff_of_false (fun h => ?_) ?_
    · cases h
    · rintro ⟨_, _, ⟨⟩, _⟩
  · constructor
    · intro h
      exact ⟨a, s₁, rfl, h⟩
    · rintro ⟨_, _, ⟨⟩, h⟩
      exact h

theorem run_pure (a : α) (s : σ) : (pure a : ExceptT ε (StateM σ) α).run s = (.ok a, s) := rfl

theorem run_tryCatch (x : ExceptT ε (StateM σ) α) (handle : ε → ExceptT ε (StateM σ) α) (s : σ) :
    (tryCatch x handle).run s = match x.run s with
      | (.ok a, s') => (.ok a, s')
      | (.error e, s') => (handle e).run s' := by
  change (match (x.run s).1 with
    | .ok a => (pure (.ok a) : StateM σ (Except ε α))
    | .error e => handle e) (x.run s).2 = _
  rcases x.run s with ⟨_ | a, s'⟩ <;> rfl

namespace Keeps

variable {I : σ → Prop} {E : ε → Prop} {Q : α → Prop} {R : β → Prop}

theorem pure {a : α} (h : Q a) : Keeps I E Q (Pure.pure a) := by
  intro s hs
  exact ⟨hs, h⟩

theorem throw {e : ε} (h : E e) : Keeps I E Q (throw e) := by
  intro s hs
  exact ⟨hs, h⟩

theorem bind {x : ExceptT ε (StateM σ) α} {f : α → ExceptT ε (StateM σ) β} (hx : Keeps I E Q x)
    (hf : ∀ a, Q a → Keeps I E R (f a)) : Keeps I E R (x >>= f) := by
  intro s hs
  obtain ⟨hkeep, hwithin⟩ := hx s hs
  rw [run_bind]
  rcases hrun : x.run s with ⟨_ | a, s'⟩
  · rw [hrun] at hkeep hwithin
    exact ⟨hkeep, hwithin⟩
  · rw [hrun] at hkeep hwithin
    exact hf a hwithin s' hkeep

theorem tryCatch {x : ExceptT ε (StateM σ) α} {handle : ε → ExceptT ε (StateM σ) α}
    (hx : Keeps I E Q x) (hhandle : ∀ e, E e → Keeps I E Q (handle e)) :
    Keeps I E Q (tryCatch x handle) := by
  intro s hs
  obtain ⟨hkeep, hwithin⟩ := hx s hs
  rw [run_tryCatch]
  rcases hrun : x.run s with ⟨e | _, s'⟩
  · rw [hrun] at hkeep hwithin
    exact hhandle e hwithin s' hkeep
  · rw [hrun] at hkeep hwithin
    exact ⟨hkeep, hwithin⟩

theorem mono {Q' : α → Prop} {x : ExceptT ε (StateM σ) α} (hx : Keeps I E Q x)
    (h : ∀ a, Q a → Q' a) : Keeps I E Q' x := by
  intro s hs
  obtain ⟨hkeep, hwithin⟩ := hx s hs
  refine ⟨hkeep, ?_⟩
  rcases hrun : (x.run s).1 with _ | a
  · rwa [hrun] at hwithin
  · rw [hrun] at hwithin
    exact h a hwithin

theorem weaken {E' : ε → Prop} {x : ExceptT ε (StateM σ) α} (hx : Keeps I E Q x)
    (h : ∀ e, E e → E' e) : Keeps I E' Q x := by
  intro s hs
  obtain ⟨hkeep, hwithin⟩ := hx s hs
  refine ⟨hkeep, ?_⟩
  rcases hrun : (x.run s).1 with e | a
  · rw [hrun] at hwithin
    exact h e hwithin
  · rwa [hrun] at hwithin

theorem get_bind {f : σ → ExceptT ε (StateM σ) β} (hf : ∀ s, I s → Keeps I E R (f s)) :
    Keeps I E R (get >>= f) := by
  intro s hs
  exact hf s hs s hs

end Keeps

/-- From states in `I` the first computation gives up with a fault in `T`, or both come to
corresponding states, the first of which is in `I` again, with corresponding results, the first of
which is in `Q`, or with faults related by `E`. -/
def Accords (θ : σ → σ) (I : σ → Prop) (T : ε → Prop) (E : ε → ε → Prop) (g : α → β) (Q : α → Prop)
    (x : ExceptT ε (StateM σ) α) (y : ExceptT ε (StateM σ) β) : Prop :=
  ∀ s, I s → match x.run s with
    | (.ok a, s') => y.run (θ s) = (.ok (g a), θ s') ∧ I s' ∧ Q a
    | (.error e, s') => T e ∨ ∃ e', y.run (θ s) = (.error e', θ s') ∧ I s' ∧ E e e'

namespace Accords

variable {γ δ : Type} {θ : σ → σ} {I : σ → Prop} {T : ε → Prop} {E : ε → ε → Prop} {g : α → β}
  {k : γ → δ} {Q : α → Prop} {R : γ → Prop} {x : ExceptT ε (StateM σ) α} {y : ExceptT ε (StateM σ) β}

theorem pureAs {a : α} {b : β} (hb : b = g a) (h : Q a) :
    Accords θ I T E g Q (Pure.pure a) (Pure.pure b) := by
  intro s hs
  rw [hb]
  exact ⟨rfl, hs, h⟩

theorem pure {a : α} (h : Q a) : Accords θ I T E id Q (Pure.pure a) (Pure.pure a) := pureAs rfl h

theorem throw {e e' : ε} (h : E e e') : Accords θ I T E g Q (throw e) (throw e') := by
  intro s hs
  exact .inr ⟨e', rfl, hs, h⟩

theorem stop {e : ε} (h : T e) : Accords θ I T E g Q (MonadExcept.throw e) y := by
  intro s _
  exact .inl h

theorem bindAs (hxy : Accords θ I T E g Q x y) {f : α → ExceptT ε (StateM σ) γ}
    {f' : β → ExceptT ε (StateM σ) δ} (hf : ∀ a, Q a → Accords θ I T E k R (f a) (f' (g a))) :
    Accords θ I T E k R (x >>= f) (y >>= f') := by
  intro s hs
  have houtcome := hxy s hs
  rw [run_bind, run_bind]
  rcases hrun : x.run s with ⟨e | a, s'⟩
  · rw [hrun] at houtcome
    obtain hstop | ⟨e', hrun', hs', he⟩ := houtcome
    · exact .inl hstop
    · rw [hrun']
      exact .inr ⟨e', rfl, hs', he⟩
  · rw [hrun] at houtcome
    obtain ⟨hrun', hs', ha⟩ := houtcome
    rw [hrun']
    exact hf a ha s' hs'

theorem bind {x y : ExceptT ε (StateM σ) α} (hxy : Accords θ I T E id Q x y)
    {f : α → ExceptT ε (StateM σ) γ} {f' : α → ExceptT ε (StateM σ) δ}
    (hf : ∀ a, Q a → Accords θ I T E k R (f a) (f' a)) :
    Accords θ I T E k R (x >>= f) (y >>= f') := hxy.bindAs hf

theorem mono {Q' : α → Prop} (hxy : Accords θ I T E g Q x y) (h : ∀ a, Q a → Q' a) :
    Accords θ I T E g Q' x y := by
  intro s hs
  have houtcome := hxy s hs
  rcases hrun : x.run s with ⟨e | a, s'⟩
  · rw [hrun] at houtcome
    exact houtcome
  · rw [hrun] at houtcome
    exact ⟨houtcome.1, houtcome.2.1, h a houtcome.2.2⟩

theorem get_bind {f : σ → ExceptT ε (StateM σ) α} {f' : σ → ExceptT ε (StateM σ) β}
    (h : ∀ s, I s → Accords θ I T E g Q (f s) (f' (θ s))) :
    Accords θ I T E g Q (get >>= f) (get >>= f') := by
  intro s hs
  exact h s hs s hs

theorem rethrow {T' : ε → Prop} {E' : ε → ε → Prop} {φ ψ : ε → ε} (hxy : Accords θ I T E g Q x y)
    (hstop : ∀ e, T e → T' (φ e)) (hfault : ∀ e e', E e e' → E' (φ e) (ψ e')) :
    Accords θ I T' E' g Q (tryCatch x fun e => MonadExcept.throw (φ e))
      (tryCatch y fun e => MonadExcept.throw (ψ e)) := by
  intro s hs
  have houtcome := hxy s hs
  rw [run_tryCatch, run_tryCatch]
  rcases hrun : x.run s with ⟨e | a, s'⟩
  · rw [hrun] at houtcome
    obtain hgave | ⟨e', hrun', hs', he⟩ := houtcome
    · exact .inl (hstop e hgave)
    · rw [hrun']
      exact .inr ⟨_, rfl, hs', hfault e e' he⟩
  · rw [hrun] at houtcome
    obtain ⟨hrun', hs', ha⟩ := houtcome
    rw [hrun']
    exact ⟨rfl, hs', ha⟩

theorem keeps (h : Accords θ I (fun _ => False) E g Q x y) : Keeps I Anything Q x := by
  intro s hs
  have houtcome := h s hs
  rcases hrun : x.run s with ⟨e | a, s'⟩
  · rw [hrun] at houtcome
    obtain ⟨e', -, hs', -⟩ := houtcome.resolve_left id
    exact ⟨hs', trivial⟩
  · rw [hrun] at houtcome
    exact ⟨houtcome.2.1, houtcome.2.2⟩

end Accords

end EventTally
