import EventTally.Proofs.Eval.Frame
import EventTally.Proofs.Renaming.Beside
import EventTally.Proofs.Tally.Feed
import EventTally.Proofs.Tally.Image

/-! # A tally among others

Alone or among other tallies, a tally makes the same of an event: what it works on among others is an
image of what it works on alone, and the images of two tallies have nothing in common but the layers of
the builtins and the host, which no tally can change. Only the stored accumulators are open to all, so
this takes a tally whose evaluations do not ask for them (`Tally.Asks`).

`Part.Placed` says where a tally stands among others. Its own events keep it in its place
(`Placed.apply`), and so do those of the others (`Placed.beside`).
-/

namespace EventTally

theorem EvalM.invariant_store (store : Store) :
    Invariant (fun w => w.store = store) Anything Anything where
  hashable := fun _ _ => trivial
  keys := fun _ _ _ _ => trivial
  members := fun _ _ _ _ => trivial
  newList := fun _ hw => hw
  newDict := fun _ hw => hw
  newSet := fun _ hw => hw
  newClosure := fun _ hw => hw
  child := fun _ hw => ⟨trivial, hw⟩
  bind := fun _ _ _ hw => hw
  unbind := fun _ _ hw => hw
  setSlot := fun _ _ _ hw => hw
  removeSlot := fun _ _ hw => hw
  setEntries := fun _ _ hw => hw
  note := fun _ hw => hw

/-- The order of iteration does not depend on which functions there are in a key. -/
def Heap.Steady (h : Heap) : Prop := ∀ (κ : Nat → Nat) (d : Datum), h.rank (d.rename κ) = h.rank d

namespace Tally

/-- The result of an event at a tally whose evaluations see no stored accumulators. -/
def attemptApart (t : Tally) (ev : Event) (b : Bench) : Except Fault Datum × Bench :=
  (t.attemptFrom ev (b.world.store.tally t.name)).run (b.withStore .empty)

/-- Some evaluation asks for a stored accumulator when the tally handles the event. Where none is
stored, such a call fails, and nothing else fails for its reason. -/
def Asks (t : Tally) (ev : Event) (b : Bench) : Prop :=
  ∃ f, (t.attemptApart ev b).1 = .error f ∧ f.Lacks

instance (r : Reason) : Decidable (r = .noSuchTally) :=
  decidable_of_bool (match r with | .noSuchTally => true | _ => false) (by cases r <;> simp)

instance (f : EventTally.Fault) : Decidable f.Lacks :=
  match f with
  | .raised e => inferInstanceAs (Decidable (e.reason = .noSuchTally))
  | .crashed => isFalse id
  | .exhausted => isFalse id

instance (f : Fault) : Decidable f.Lacks :=
  match f with
  | .field _ _ (.evaluation e) => inferInstanceAs (Decidable (EventTally.Fault.raised e).Lacks)
  | .field _ _ (.result _) => isFalse id
  | .record _ => isFalse id
  | .store _ => isFalse id
  | .crashed => isFalse id

instance (t : Tally) (ev : Event) (b : Bench) : Decidable (t.Asks ev b) :=
  match h : (t.attemptApart ev b).1 with
  | .ok _ => isFalse fun ⟨_, hf, _⟩ => by cases h.symm.trans hf
  | .error f => decidable_of_iff f.Lacks
    ⟨fun hlacks => ⟨f, h, hlacks⟩, fun ⟨_, hf, hlacks⟩ => by cases h.symm.trans hf; exact hlacks⟩

theorem keeps_attemptFrom {I : World → Prop} {Own : ScopeRef → Prop} {Key : Value → Prop}
    (inv : EvalM.Invariant I Own Key) (t : Tally) (ev : Event) {stored : Except Reason Datum}
    (hstored : ∀ d, stored = .ok d → d.Sound) :
    Keeps (Upheld I Own) Anything Anything (t.attemptFrom ev stored) := by
  have hacc : Keeps (Upheld I Own) Anything Anything (t.accumulatorFrom stored) := by
    unfold accumulatorFrom
    split
    · next d => exact keeps_allocate_thaw inv (hstored d rfl)
    · exact keeps_initial inv fun _ _ => trivial
    · exact Keeps.throw trivial
  refine hacc.bind fun acc _ => ?_
  refine ((keeps_handle inv t acc ev).weaken fun _ _ => trivial).bind fun v _ => ?_
  refine Keeps.get_bind fun b _ => ?_
  split
  · exact Keeps.pure (anything _)
  · exact Keeps.throw trivial

theorem store_attemptFrom (t : Tally) (ev : Event) (s : Store) (name : String) (b : Bench) :
    ((t.attemptFrom ev (s.tally name)).run b).2.world.store = b.world.store := by
  have hsound : ∀ d, s.tally name = .ok d → d.Sound := fun _ hd => Store.sound_of_tally hd
  have hkeep := keeps_attemptFrom (EvalM.invariant_store b.world.store) t ev hsound
  exact (hkeep b ⟨rfl, fun _ _ => trivial⟩).1.1

theorem layers_attemptApart (t : Tally) (ev : Event) {h : Heap} {b : Bench}
    (hb : h.KeepsLayers (fun _ => False) b.world.heap)
    (hscope : ∀ s, b.scope = some s → h.layers.size ≤ s.id) :
    h.KeepsLayers (fun _ => False) (t.attemptApart ev b).2.world.heap ∧
      ∀ s, (t.attemptApart ev b).2.scope = some s → h.layers.size ≤ s.id := by
  have inv := EvalM.invariant_keepsLayers (fun _ => False) h
  have hsound : ∀ d, b.world.store.tally t.name = .ok d → d.Sound :=
    fun _ hd => Store.sound_of_tally hd
  have hkeep := keeps_attemptFrom inv t ev hsound
  obtain ⟨⟨hlayers, hown⟩, -⟩ := hkeep (b.withStore .empty) ⟨hb, fun s hs => .inr (hscope s hs)⟩
  refine ⟨hlayers, fun s hs => ?_⟩
  obtain hfalse | hle := hown s hs
  · exact hfalse.elim
  · exact hle

section

variable {t : Tally} {ev : Event} {b : Bench} (hparsed : t.Parsed)
include hparsed

theorem Parsed.mirrors {P : Pairing} (hhost : P.ρ.scope t.host = t.host) (s : Store) (name : String) :
    Simulates P.benches (Datum.rename P.ρ.closures) (t.attemptFrom ev (s.tally name))
      (t.attemptFrom ev (s.tally name)) :=
  mirrors_attemptFrom ⟨hparsed P.ρ, hhost⟩ ev fun _ hd => Store.inert_of_tally hd

variable (ev) in
theorem Parsed.within_attemptFrom (s : Store) (name : String) (b : Bench) :
    b.world.heap.Within ((t.attemptFrom ev (s.tally name)).run b).2.world.heap := by
  set final := ((t.attemptFrom ev (s.tally name)).run b).2.world.heap with hfinal
  have hlimit : final.Within final := .refl final
  let P : Pairing := ⟨.same, final, b.world.heap, [], [], fun _ => True⟩
  exact (hparsed.mirrors (P := P) rfl s name).bounded b hlimit

theorem Parsed.attempt_eq (hasks : ¬ t.Asks ev b) :
    ((t.attempt ev).run b).2 = (t.attemptApart ev b).2.withStore b.world.store ∧
      Matched (fun d d' => d' = d.rename id) Fault.Alike (t.attemptApart ev b).1
        ((t.attempt ev).run b).1 := by
  have hstore := store_attemptFrom t ev b.world.store t.name b
  rw [run_attempt_eq]
  set final := (t.attemptApart ev b).2.world.heap with hfinal
  have hlimit : final.Within final := .refl final
  let P : Pairing := ⟨.same, final, b.world.heap, b.world.journal, b.world.journal, fun _ => False⟩
  have hworlds : P.Worlds (b.withStore .empty).world b.world :=
    ⟨Heap.image_same _ _, ⟨fun _ h => h.elim, fun _ _ => rfl⟩, [], rfl, rfl⟩
  have hscope : b.scope = b.scope.map P.ρ.scope := (Option.map_id_apply).symm
  obtain ⟨f, hf, hlacks, -⟩ | ⟨⟨hrel, hscope'⟩, hmatch⟩ :=
    (hparsed.mirrors (P := P) rfl b.world.store t.name (b.withStore .empty) hlimit).2 b ⟨hworlds, hscope⟩
  · exact absurd ⟨f, hf, hlacks⟩ hasks
  · have horder := (hparsed.within_attemptFrom ev b.world.store t.name b).rank.symm.trans
      (hparsed.within_attemptFrom ev b.world.store t.name (b.withStore .empty)).rank
    have hheap := Heap.eq_of_image_same hrel.image horder
    obtain ⟨texts, hnoted, hnoted'⟩ := hrel.noted
    have hjournal := hnoted'.trans hnoted.symm
    rw [show P.ρ.scope = id from rfl, Option.map_id_apply] at hscope'
    refine ⟨?_, hmatch⟩
    change _ = ((t.attemptFrom ev (b.world.store.tally t.name)).run (b.withStore .empty)).2.withStore _
    generalize (t.attemptFrom ev (b.world.store.tally t.name)).run b = full at *
    obtain ⟨r, scope, heap, journal, store⟩ := full
    dsimp only at hstore hheap hjournal hscope'
    rw [hstore, hheap, hjournal, hscope']
    rfl

section

variable {ρ : Renaming} {w : World} (hclosed : b.world.heap.Closed)
  (hhost : b.world.heap.HasScope t.host) (hscope : ∀ s, b.scope = some s → b.world.heap.HasScope s)
include hclosed hhost hscope

variable (ev) in
theorem Parsed.closed_attemptApart :
    b.world.heap.Within (t.attemptApart ev b).2.world.heap ∧
      (t.attemptApart ev b).2.world.heap.Closed ∧
      ∀ s, (t.attemptApart ev b).2.scope = some s →
        (t.attemptApart ev b).2.world.heap.HasScope s := by
  set final := (t.attemptApart ev b).2.world.heap with hfinal
  have hlimit : final.Within final := .refl final
  have hwithin : b.world.heap.Within final :=
    hparsed.within_attemptFrom ev b.world.store t.name (b.withStore .empty)
  let P : Pairing :=
    ⟨.beyond final, final, b.world.heap, b.world.journal, b.world.journal, fun _ => True⟩
  have hagree : Renaming.Agree .same P.ρ b.world.heap :=
    (Renaming.Agree.refl _ _).trans (Renaming.agree_beyond final) hwithin
  have hworlds : P.Worlds (b.withStore .empty).world (b.withStore .empty).world :=
    ⟨Heap.image_beyond hclosed hwithin, ⟨fun _ _ => rfl, fun _ h => absurd trivial h⟩, [], rfl, rfl⟩
  have hbench : b.scope = b.scope.map P.ρ.scope := by
    cases hb : b.scope with
    | none => rfl
    | some s => exact congrArg some (hagree.scope (hscope s hb)).symm
  obtain ⟨f, -, -, name, hname⟩ | ⟨⟨hrel, hscope'⟩, -⟩ :=
    (hparsed.mirrors (P := P) (hagree.scope hhost) b.world.store t.name (b.withStore .empty) hlimit).2
      (b.withStore .empty) ⟨hworlds, hbench⟩
  · exact absurd trivial hname
  · refine ⟨hwithin, Heap.closed_of_image hrel.image (hclosed.builtins.within hwithin), fun s hs => ?_⟩
    have hs' : some s = some (P.ρ.scope s) := by
      change (t.attemptApart ev b).2.scope = (t.attemptApart ev b).2.scope.map P.ρ.scope at hscope'
      rwa [hs] at hscope'
    exact Renaming.hasScope_of_beyond (Option.some.inj hs').symm

theorem Parsed.attempt_beside (hcopies : Heap.Copies ρ b.world.heap w.heap)
    (horder : w.heap.rank = b.world.heap.rank) (hsteady : b.world.heap.Steady)
    (hρ : ρ.scope t.host = t.host)
    (hstored : w.store.tally t.name = b.world.store.tally t.name) (hasks : ¬ t.Asks ev b) :
    let full := (t.attempt ev).run { scope := b.scope.map ρ.scope, world := w }
    full.2.world.store = w.store ∧ full.2.world.heap.rank = w.heap.rank ∧
    ∃ ρ', Heap.Moves ρ ρ' b.world.heap w.heap (t.attemptApart ev b).2.world.heap full.2.world.heap ∧
      Heap.Copies ρ' (t.attemptApart ev b).2.world.heap full.2.world.heap ∧
      full.2.scope = (t.attemptApart ev b).2.scope.map ρ'.scope ∧
      Matched (fun d d' => d' = d.rename ρ'.closures) Fault.Alike (t.attemptApart ev b).1 full.1 := by
  intro full
  obtain ⟨hwithin, -, -⟩ := hparsed.closed_attemptApart ev hclosed hhost hscope
  have hfull : full = (t.attemptFrom ev (b.world.store.tally t.name)).run
      { scope := b.scope.map ρ.scope, world := w } := by
    rw [← hstored]
    exact run_attempt_eq t ev _
  rw [hfull]
  refine ⟨store_attemptFrom t ev b.world.store t.name _,
    (hparsed.within_attemptFrom ev b.world.store t.name _).rank.symm, ?_⟩
  set final := (t.attemptApart ev b).2.world.heap with hfinal
  have hlimit : final.Within final := .refl final
  let P : Pairing :=
    ⟨ρ.resume b.world.heap w.heap, final, w.heap, b.world.journal, w.journal, fun _ => False⟩
  have hagree : Renaming.Agree ρ P.ρ b.world.heap := ρ.agree_resume b.world.heap w.heap
  have hworlds : P.Worlds (b.withStore .empty).world w :=
    ⟨hcopies.image hclosed (fun d => by rw [horder, hsteady]) final,
      ⟨fun _ h => h.elim, fun _ _ => rfl⟩, [], rfl, rfl⟩
  have hbench : b.scope.map ρ.scope = b.scope.map P.ρ.scope := by
    cases hb : b.scope with
    | none => rfl
    | some s => exact congrArg some (hagree.scope (hscope s hb)).symm
  obtain ⟨f, hf, hlacks, -⟩ | ⟨⟨hrel, hscope'⟩, hmatch⟩ :=
    (hparsed.mirrors (P := P) ((hagree.scope hhost).trans hρ) b.world.store t.name
      (b.withStore .empty) hlimit).2 { scope := b.scope.map ρ.scope, world := w } ⟨hworlds, hbench⟩
  · exact absurd ⟨f, hf, hlacks⟩ hasks
  · exact ⟨P.ρ, hrel.image.moves hwithin, hrel.image.copies, hscope', hmatch⟩

end

end

theorem Fault.Alike.outcome {f f' : Fault} (h : f.Alike f') :
    Outcome.ofResult (.error f') = Outcome.ofResult (.error f) := by
  cases h <;> rfl

/-- Both stores are as they were, or the accumulator of the name is replaced in both. -/
inductive Replaced (name : String) (s s' : Store) : Store → Store → Prop
  | none : Replaced name s s' s s'
  | some (text : String) : Replaced name s s' (s.withTally name text) (s'.withTally name text)

theorem apply_alike {t : Tally} {ev : Event} {b b' c c' : Bench} {x r r' : Except Fault Datum}
    {κ κ' : Nat → Nat} (hrun : (t.attempt ev).run b = (r, c)) (hrun' : (t.attempt ev).run b' = (r', c'))
    (hstore : c.world.store = b.world.store) (hstore' : c'.world.store = b'.world.store)
    (hr : Matched (fun d d' => d' = d.rename κ) Fault.Alike x r)
    (hr' : Matched (fun d d' => d' = d.rename κ') Fault.Alike x r') :
    ∃ s s', Replaced t.name b.world.store b'.world.store s s' ∧
      ((t.apply ev).run b).2 = c.withStore s ∧ ((t.apply ev).run b').2 = c'.withStore s' ∧
      Outcome.ofResult ((t.apply ev).run b').1 = Outcome.ofResult ((t.apply ev).run b).1 := by
  have hc : c = c.withStore b.world.store := by
    rw [← hstore]
    rfl
  have hc' : c' = c'.withStore b'.world.store := by
    rw [← hstore']
    rfl
  rw [run_apply, run_apply, hrun, hrun']
  rcases x with f | d
  · rcases r with f₁ | d₁
    · rcases r' with f₂ | d₂
      · exact ⟨_, _, .none, hc, hc', hr'.outcome.trans hr.outcome.symm⟩
      · cases hr'
    · cases hr
  · rcases r with f₁ | d₁
    · cases hr
    · rcases r' with f₂ | d₂
      · cases hr'
      · obtain rfl : d₁ = d.rename κ := hr
        obtain rfl : d₂ = d.rename κ' := hr'
        dsimp only
        unfold Store.setTally
        rw [Datum.marshal_rename, Datum.marshal_rename]
        rcases Codec.marshal d with e | text
        · exact ⟨_, _, .none, hc, hc', rfl⟩
        · by_cases hname : t.name = ""
          · dsimp only
            rw [if_pos hname, if_pos hname]
            exact ⟨_, _, .none, hc, hc', rfl⟩
          · dsimp only
            rw [if_neg hname, if_neg hname]
            exact ⟨_, _, .some text, rfl, rfl, rfl⟩

end Tally

section

variable {α : Type} {ρ ρ' ρ₁ : Nat → Nat} {f : α → α} {bs bs' bs₁ as as₁ : Array α} {n : Nat}

/-- Two images have no elements in common but the first `n`. -/
def Parted (n : Nat) (ρ ρ' : Nat → Nat) (bs bs' : Array α) : Prop :=
  ∀ i < bs.size, ∀ j < bs'.size, ρ i = ρ' j → i < n ∧ j < n

theorem Parted.symm (h : Parted n ρ ρ' bs bs') : Parted n ρ' ρ bs' bs :=
  fun i hi j hj heq => (h j hj i hi heq.symm).symm

theorem Parted.moves (h : Parted n ρ ρ' bs bs') (hmoves : Moves ρ ρ₁ bs as bs₁ as₁)
    (hinjects : Injects ρ' f bs' as) : Parted n ρ₁ ρ' bs₁ bs' := by
  intro i hi j hj heq
  by_cases hold : i < bs.size
  · rw [hmoves.agree i hold] at heq
    exact h i hold j hj heq
  · have hfresh := hmoves.fresh i (Nat.le_of_not_lt hold) hi
    have hlt := hinjects.lt hj
    omega

/-- An image stays when another one changes, if what they have in common stays. -/
theorem Injects.beside (hinjects : Injects ρ' f bs' as) (h : Parted n ρ ρ' bs bs')
    (hmoves : Moves ρ ρ₁ bs as bs₁ as₁) (hfixed : ∀ j < n, ρ' j = j)
    (hcommon : ∀ j < n, as₁[j]? = as[j]?) : Injects ρ' f bs' as₁ := by
  refine ⟨fun j b hb => ?_, hinjects.mono⟩
  have hj : j < bs'.size := (Array.getElem?_eq_some_iff.mp hb).1
  have hsame : as₁[ρ' j]? = as[ρ' j]? := by
    by_cases hshared : ∃ i < bs.size, ρ i = ρ' j
    · obtain ⟨i, hi, heq⟩ := hshared
      have hlt := (h i hi j hj heq).2
      rw [hfixed j hlt]
      exact hcommon j hlt
    · refine hmoves.spare (ρ' j) (hinjects.lt hj) fun i hi heq => hshared ⟨i, hi, heq⟩
  rw [hsame]
  exact hinjects.copy j b hb

end

open Tally (Bench Outcome Fault Replaced)

/-- A tally that works alone, and the numbers that its objects have in the heap of all tallies. -/
structure Part where
  tally : Tally
  bench : Bench
  ρ : Renaming

namespace Part

variable {h : Heap} {p q : Part} {w w₁ : World}

def heap (p : Part) : Heap := p.bench.world.heap

/-- The tally with its scope among all tallies. -/
def entry (p : Part) : Tally × Option ScopeRef := (p.tally, p.bench.scope.map p.ρ.scope)

/-- The world of all tallies has an image of the heap of the tally and its accumulator. The layers of
`h` are common to all tallies, and no tally has changed them. -/
structure Placed (h : Heap) (p : Part) (w : World) : Prop where
  parsed : p.tally.Parsed
  host : p.tally.host.id < h.layers.size
  closed : p.heap.Closed
  copies : Heap.Copies p.ρ p.heap w.heap
  order : w.heap.rank = p.heap.rank
  steady : p.heap.Steady
  fixed : ∀ i < h.layers.size, p.ρ.layers i = i
  layers : h.KeepsLayers (fun _ => False) p.heap
  hasScope : ∀ s, p.bench.scope = some s → p.heap.HasScope s
  scope : ∀ s, p.bench.scope = some s → h.layers.size ≤ s.id
  stored : w.store.tallyText? p.tally.name = p.bench.world.store.tallyText? p.tally.name

/-- The tallies have nothing in common but the layers of `h`. -/
structure Apart (h : Heap) (p q : Part) : Prop where
  names : p.tally.name ≠ q.tally.name
  lists : Parted 0 p.ρ.lists q.ρ.lists p.heap.lists q.heap.lists
  dicts : Parted 0 p.ρ.dicts q.ρ.dicts p.heap.dicts q.heap.dicts
  sets : Parted 0 p.ρ.sets q.ρ.sets p.heap.sets q.heap.sets
  closures : Parted 0 p.ρ.closures q.ρ.closures p.heap.closures q.heap.closures
  layers : Parted h.layers.size p.ρ.layers q.ρ.layers p.heap.layers q.heap.layers

theorem Apart.symm (ha : Apart h p q) : Apart h q p :=
  ⟨ha.names.symm, ha.lists.symm, ha.dicts.symm, ha.sets.symm, ha.closures.symm, ha.layers.symm⟩

theorem Placed.layer_eq (hp : p.Placed h w) {i : Nat} (hi : i < h.layers.size) :
    p.heap.layers[i]? = some (h.layer ⟨i⟩) ∧ w.heap.layers[i]? = some (p.ρ.layer (h.layer ⟨i⟩)) := by
  have hget := Array.getElem?_eq_getElem (hi.trans_le hp.layers.size_le)
  have hlayer := hp.layers.layer ⟨i⟩ hi id
  have hcopy := hp.copies.layers.copy i _ hget
  rw [hp.fixed i hi] at hcopy
  rw [Heap.layer, hget] at hlayer
  rw [← hlayer]
  exact ⟨hget, hcopy⟩

/-- An event at one of the tallies leads to the same alone and among all tallies. -/
theorem Placed.apply (hp : p.Placed h w) (ev : Event) (hasks : ¬ p.tally.Asks ev p.bench) :
    let alone := (p.tally.apply ev).run p.bench
    let full := (p.tally.apply ev).run { scope := p.entry.2, world := w }
    Outcome.ofResult full.1 = Outcome.ofResult alone.1 ∧
    (∀ name ≠ p.tally.name, full.2.world.store.tallyText? name = w.store.tallyText? name) ∧
    full.2.world.heap.rank = w.heap.rank ∧
    ∃ ρ', Placed h { p with bench := alone.2, ρ := ρ' } full.2.world ∧
      full.2.scope = alone.2.scope.map ρ'.scope ∧
      Heap.Moves p.ρ ρ' p.heap w.heap alone.2.world.heap full.2.world.heap := by
  intro alone full
  have hhost : p.heap.HasScope p.tally.host := hp.host.trans_le hp.layers.size_le
  have hρ : p.ρ.scope p.tally.host = p.tally.host := congrArg ScopeRef.mk (hp.fixed _ hp.host)
  have hstored : w.store.tally p.tally.name = p.bench.world.store.tally p.tally.name := by
    rw [Store.tally, hp.stored, ← Store.tally]
  obtain ⟨hrun, hr⟩ := hp.parsed.attempt_eq hasks
  obtain ⟨hwithin, hclosed, hhas⟩ := hp.parsed.closed_attemptApart ev hp.closed hhost hp.hasScope
  obtain ⟨hstore', hrank, ρ', hmoves, hcopies, hscope, hr'⟩ :=
    hp.parsed.attempt_beside hp.closed hhost hp.hasScope hp.copies hp.order hp.steady hρ hstored hasks
  obtain ⟨hlayers, hown⟩ := Tally.layers_attemptApart p.tally ev hp.layers hp.scope
  obtain ⟨s, s', hreplaced, halone, hfull, houtcome⟩ :=
    Tally.apply_alike (t := p.tally) (Prod.mk.eta).symm (Prod.mk.eta).symm (by rw [hrun]; rfl)
      hstore' hr hr'
  have halone : alone.2 = (p.tally.attemptApart ev p.bench).2.withStore s := by
    rw [hrun] at halone
    exact halone
  have hfull : full.2 =
      ((p.tally.attempt ev).run { scope := p.entry.2, world := w }).2.withStore s' := hfull
  rw [halone, hfull]
  refine ⟨houtcome, ?_, hrank, ρ', ?_, hscope, hmoves⟩
  · intro name hname
    change s'.tallyText? name = w.store.tallyText? name
    cases hreplaced with
    | none => rfl
    | some text => rw [Store.tallyText?_withTally, if_neg (by simp [hname.symm])]
  · have hsteady : Heap.Steady (p.tally.attemptApart ev p.bench).2.world.heap := by
      rw [Heap.Steady, ← hwithin.rank]
      exact hp.steady
    refine ⟨hp.parsed, hp.host, hclosed, hcopies, (hrank.trans hp.order).trans hwithin.rank, hsteady,
      fun i hi => ?_, hlayers, hhas, hown, ?_⟩
    · exact (hmoves.layers.agree i (hi.trans_le hp.layers.size_le)).trans (hp.fixed i hi)
    · change s'.tallyText? p.tally.name = s.tallyText? p.tally.name
      cases hreplaced with
      | none => exact hp.stored
      | some text => rw [Store.tallyText?_withTally, Store.tallyText?_withTally, hp.stored]

/-- What a tally does leaves the others in their places. -/
theorem Placed.beside (hq : q.Placed h w) (hp : p.Placed h w) (ha : Apart h p q) {p' : Part}
    (hp' : p'.Placed h w₁) (hmoves : Heap.Moves p.ρ p'.ρ p.heap w.heap p'.heap w₁.heap)
    (horder : w₁.heap.rank = w.heap.rank)
    (hstore : w₁.store.tallyText? q.tally.name = w.store.tallyText? q.tally.name) :
    q.Placed h w₁ := by
  have hcommon : ∀ i < h.layers.size, w₁.heap.layers[i]? = w.heap.layers[i]? := by
    intro i hi
    obtain ⟨hget, hcopy⟩ := hp.layer_eq hi
    rw [hcopy, (hp'.layer_eq hi).2,
      hmoves.agree.layer hp.closed (Array.mem_of_getElem? hget)]
  have hnone {α : Type} (as as' : Array α) : ∀ i < 0, as[i]? = as'[i]? := nofun
  have hzero {ρ : Nat → Nat} : ∀ i < 0, ρ i = i := nofun
  refine { hq with copies := ?_, order := horder.trans hq.order, stored := hstore.trans hq.stored }
  constructor
  · exact hq.copies.builtins
  · exact hq.copies.lists.beside ha.lists hmoves.lists hzero (hnone _ _)
  · exact hq.copies.dicts.beside ha.dicts hmoves.dicts hzero (hnone _ _)
  · exact hq.copies.sets.beside ha.sets hmoves.sets hzero (hnone _ _)
  · exact hq.copies.closures.beside ha.closures hmoves.closures hzero (hnone _ _)
  · exact hq.copies.layers.beside ha.layers hmoves.layers hq.fixed hcommon

theorem Apart.moves (ha : Apart h p q) (hq : q.Placed h w) {p' : Part}
    (htally : p'.tally = p.tally) (hmoves : Heap.Moves p.ρ p'.ρ p.heap w.heap p'.heap w₁.heap) :
    Apart h p' q := by
  constructor
  · rw [htally]
    exact ha.names
  · exact ha.lists.moves hmoves.lists hq.copies.lists
  · exact ha.dicts.moves hmoves.dicts hq.copies.dicts
  · exact ha.sets.moves hmoves.sets hq.copies.sets
  · exact ha.closures.moves hmoves.closures hq.copies.closures
  · exact ha.layers.moves hmoves.layers hq.copies.layers

def outcome (p : Part) (ev : Event) : Outcome := .ofResult ((p.tally.apply ev).run p.bench).1

structure Next (ev : Event) (p q : Part) : Prop where
  tally : q.tally = p.tally
  bench : q.bench = ((p.tally.apply ev).run p.bench).2

end Part

end EventTally
