import EventTally.Proofs.Codec.RoundTrip
import EventTally.Proofs.Heap.Finite
import EventTally.Proofs.Tally.Work
import EventTally.Tally.Feed

/-! # What becomes of an event at a tally

`Tally.settle` says what a tally does with an event in one step: it handles the event with its stored
accumulator, or with its initial one, and the result is stored if it has a text; otherwise the store
stays as it was. The application of events, which goes through an update of the store, does the
same (`run_apply`, `settle_eq`).
-/

namespace EventTally

namespace Store

/-- The store with another encoded accumulator under a name. -/
def withTally (s : Store) (name text : String) : Store :=
  { s with tallies := Keyed.insert (· == name) name text s.tallies }

/-- All accumulators are texts of sound data. -/
def Written (s : Store) : Prop := ∀ e ∈ s.tallies, ∃ d, d.Sound ∧ Codec.marshal d = .ok e.2

/-- No accumulator is nested deeper than texts that are read may be. -/
def Shallow (s : Store) : Prop :=
  ∀ e ∈ s.tallies, ∀ d j, Codec.encode d = .ok j → j.text = e.2 → j.depth ≤ Json.maxDepth

theorem Written.not_shallow {s : Store} (hw : s.Written) {name : String} {r : Reason}
    (h : s.tally name = .error r) (hr : r ≠ .noSuchTally) : ¬ s.Shallow := by
  intro hs
  unfold tally at h
  split at h
  case h_1 => exact hr (Except.error.inj h).symm
  case h_2 text htext =>
    obtain ⟨e, hfind, rfl⟩ := Option.map_eq_some_iff.mp htext
    have he := List.mem_of_find?_eq_some hfind
    obtain ⟨d, hd, htext⟩ := hw e he
    obtain ⟨j, hj, -, hje⟩ := Codec.encode_of_marshal htext
    obtain ⟨d', hd'⟩ := Codec.unmarshal_marshal hd hj (hs e he d j hj hje)
    rw [← hje, hd'] at h
    cases h

theorem Written.withTally {s : Store} (hw : s.Written) (name : String) {d : Datum} {text : String}
    (hd : d.Sound) (h : Codec.marshal d = .ok text) : (s.withTally name text).Written := by
  intro e he
  rcases Codec.mem_insert he with rfl | he
  · exact ⟨d, hd, h⟩
  · exact hw e he

theorem tallyText?_withTally (s : Store) (name text x : String) :
    (s.withTally name text).tallyText? x = if name == x then some text else s.tallyText? x :=
  Keyed.find?_insert_name name text s.tallies

theorem setTally_eq_ok_iff {s s' : Store} {name : String} {d : Datum} :
    s.setTally name d = .ok s' ↔
      name ≠ "" ∧ ∃ text, Codec.marshal d = .ok text ∧ s' = s.withTally name text := by
  unfold setTally
  cases hd : Codec.marshal d with
  | error r => simp
  | ok text =>
    by_cases hname : name = ""
    · simp [hname]
    · simp [hname, withTally, eq_comm]

theorem tooDeep_of_setTally {s : Store} {name : String} (hname : name ≠ "") {d : Datum} {j : Json}
    (hj : Codec.encode d = .ok j) {r : Reason} (h : s.setTally name d = .error r) : r = .tooDeep := by
  unfold setTally at h
  rw [Codec.marshal_of_encode hj] at h
  by_cases hopened : j.opened ≤ Json.maxDepth
  · rw [if_pos hopened] at h
    simp [hname] at h
  · rw [if_neg hopened] at h
    exact (Except.error.inj h).symm

end Store

namespace Tally

inductive Outcome where
  | stored
  | skipped
  | refused (r : Reason)
  | crashed
  deriving Inhabited

def Outcome.ofResult : Except Fault Unit → Outcome
  | .ok _ => .stored
  | .error (.field ..) => .skipped
  | .error (.record r) | .error (.store r) => .refused r
  | .error .crashed => .crashed

namespace Bench

def withStore (b : Bench) (s : Store) : Bench := { b with world := { b.world with store := s } }

end Bench

def attempt (t : Tally) (ev : Event) : RunM Datum := do
  let acc ← t.accumulator
  let v ← t.handle acc ev
  match t.dataOf (← heap) v with
  | .ok d => return d
  | .error f => throw f

/-- Handles an event with the stored accumulator or the initial one. A result that can be encoded is
stored unless it is nested too deep, and else the store is the one before. -/
def settle (t : Tally) (ev : Event) (b : Bench) : Outcome × Bench :=
  let before := b.world.store
  match (t.attempt ev).run b with
  | (.ok d, b') =>
    match Codec.marshal d with
    | .ok text => (.stored, b'.withStore (before.withTally t.name text))
    | .error r => (.refused r, b'.withStore before)
  | (.error fault, b') => (.ofResult (.error fault), b'.withStore before)

theorem run_accumulator (t : Tally) (b : Bench) :
    t.accumulator.run b = ExceptT.run (match b.world.store.tally t.name with
      | .ok d => allocate (·.thaw d)
      | .error .noSuchTally => t.initial
      | .error r => throw (.store r)) b := rfl

theorem run_current (t : Tally) (next : Value → RunM (Value × Store)) (b : Bench) :
    (b.world.store.current workshop t.name t.initial next).run b = (t.accumulator >>= next).run b := by
  rw [run_bind, run_accumulator]
  unfold Store.current
  generalize b.world.store.tally t.name = stored
  rcases stored with r | d
  · cases r with
    | noSuchTally => exact run_bind _ _ _
    | _ => rfl
  · exact run_bind _ _ _

theorem dataOf_eq_ok {t : Tally} {h : Heap} {v : Value} {d : Datum} (hd : t.dataOf h v = .ok d) :
    d = h.datum v ∧ ∃ j, Codec.encode d = .ok j := by
  unfold dataOf at hd
  split at hd
  · next j hj =>
    cases hd
    exact ⟨rfl, j, (Heap.encode?_eq_ok hj).2⟩
  · cases hd
  · cases hd

theorem dataOf_eq_error {t : Tally} {h : Heap} {v : Value} {f : Fault} (hf : t.dataOf h v = .error f) :
    f.InField := by
  unfold dataOf at hf
  split at hf
  · cases hf
  · cases hf
    trivial
  · cases hf
    trivial

theorem run_handleData (t : Tally) (ev : Event) (acc : Value) (b : Bench) :
    (t.handleData ev acc).run b = match (t.handle acc ev).run b with
      | (.error fault, b') => (.error fault, b')
      | (.ok v, b') => ((t.dataOf b'.world.heap v).map fun _ => v, b') := by
  rw [handleData, run_bind]
  rcases (t.handle acc ev).run b with ⟨fault | v, b'⟩
  · rfl
  · change (match t.dataOf b'.world.heap v with
      | .ok _ => pure v
      | .error f => throw f : RunM Value).run b' = _
    dsimp only
    cases t.dataOf b'.world.heap v <;> rfl

theorem run_attempt (t : Tally) (ev : Event) (b : Bench) :
    (t.attempt ev).run b = match t.accumulator.run b with
      | (.error fault, b') => (.error fault, b')
      | (.ok acc, b') =>
        match (t.handle acc ev).run b' with
        | (.error fault, b') => (.error fault, b')
        | (.ok v, b') => (t.dataOf b'.world.heap v, b') := by
  rw [attempt, run_bind]
  rcases t.accumulator.run b with ⟨fault | acc, b'⟩
  · rfl
  · dsimp only
    rw [run_bind]
    rcases (t.handle acc ev).run b' with ⟨fault | v, b''⟩
    · rfl
    · change (match t.dataOf b''.world.heap v with
        | .ok d => pure d
        | .error f => throw f : RunM Datum).run b'' = _
      dsimp only
      cases t.dataOf b''.world.heap v <;> rfl

/-- The result of an event is stored, unless the store refuses it. -/
theorem run_apply (t : Tally) (ev : Event) (b : Bench) :
    (t.apply ev).run b = match (t.attempt ev).run b with
      | (.error fault, b') => (.error fault, b')
      | (.ok d, b') =>
        match b.world.store.setTally t.name d with
        | .error r => (.error (.store r), b')
        | .ok s => (.ok (), b'.withStore s) := by
  have happly : (t.apply ev).run b = ExceptT.run (b.world.store.update workshop t.name t.initial
    (t.handleData ev) >>= fun result => modify fun b' => b'.withStore result.2) b := rfl
  rw [happly, run_bind, Store.update, run_current, run_bind, run_attempt]
  rcases t.accumulator.run b with ⟨fault | acc, b₁⟩
  · rfl
  · dsimp only
    rw [run_bind, run_handleData]
    rcases (t.handle acc ev).run b₁ with ⟨fault | v, b₂⟩
    · rfl
    · dsimp only
      rcases hdata : t.dataOf b₂.world.heap v with fault | d
      · rfl
      · obtain ⟨rfl, -⟩ := dataOf_eq_ok hdata
        have hsave : (workshop.save v).run b₂ = (.ok (b₂.world.heap.datum v), b₂) := rfl
        dsimp only [Except.map]
        rw [run_bind, hsave]
        dsimp only
        cases b.world.store.setTally t.name (b₂.world.heap.datum v) <;> rfl

/-- What can go wrong with an event: a field fails or crashes, a record cannot be decoded, or a stored
accumulator cannot be read. -/
def Fault.Expected (store : Store) (ev : Event) : Fault → Prop
  | .field .. | .crashed => True
  | .record r => ev.Undecodable r
  | .store r => ∃ name, store.tally name = .error r ∧ r ≠ .noSuchTally

theorem Fault.InEvent.expected {ev : Event} {f : Fault} (h : f.InEvent ev) (store : Store) :
    f.Expected store ev := by
  cases f with
  | field rule f cause => trivial
  | record r => exact h
  | store r => cases h
  | crashed => trivial

theorem keeps_accumulator (t : Tally) (store : Store) (ev : Event) :
    Keeps (Kept store) (Fault.Expected store ev) Anything t.accumulator := by
  have inv := EvalM.invariant_sound store
  refine Keeps.get_bind fun b hb => ?_
  rw [hb.1.1]
  split
  · next d hd => exact keeps_allocate_thaw inv (Store.sound_of_tally hd)
  · exact keeps_initial inv fun f hf => (hf.inEvent ev).expected store
  · next r hne hr => exact Keeps.throw ⟨t.name, hr, hne⟩

theorem keeps_attempt (t : Tally) (store : Store) (ev : Event) :
    Keeps (Kept store) (Fault.Expected store ev)
      (fun d => d.Sound ∧ ev.Decodable ∧ ∃ j, Codec.encode d = .ok j) (t.attempt ev) := by
  refine (keeps_accumulator t store ev).bind fun acc _ => ?_
  have hhandle := (keeps_handle (EvalM.invariant_sound store) t acc ev).weaken
    fun f hf => hf.expected store
  refine hhandle.bind fun v hdec => Keeps.get_bind fun b hb => ?_
  split
  · next d hd =>
    obtain ⟨rfl, hj⟩ := dataOf_eq_ok hd
    exact Keeps.pure ⟨hb.1.2.datum v, hdec, hj⟩
  · next f hf => exact Keeps.throw (((dataOf_eq_error hf).inEvent ev).expected store)

/-- The application of an event settles it. -/
theorem settle_eq (t : Tally) (hname : t.name ≠ "") (ev : Event) {b : Bench}
    (hb : b.world.heap.Sound) :
    t.settle ev b = (.ofResult ((t.apply ev).run b).1, ((t.apply ev).run b).2) := by
  obtain ⟨⟨⟨hstore, -⟩, -⟩, -⟩ := keeps_attempt t b.world.store ev b ⟨⟨rfl, hb⟩, fun _ _ => trivial⟩
  rw [run_apply, settle]
  rcases hrun : (t.attempt ev).run b with ⟨fault | d, b'⟩
  all_goals
    rw [hrun] at hstore
    have hsame : b'.withStore b.world.store = b' := by
      rw [← hstore]
      rfl
  · dsimp only
    rw [hsame]
  · dsimp only
    unfold Store.setTally
    rcases Codec.marshal d with r | text
    · dsimp only
      rw [hsame]
      rfl
    · dsimp only
      rw [if_neg hname]
      rfl

end Tally

/-- Everything stored was encoded from sound data, and the heap is sound. -/
structure World.Fit (w : World) : Prop where
  written : w.store.Written
  sound : w.heap.Sound

namespace Tally

/-- Why an application fails: for a fault of the event, or because the result is nested too deep. -/
def Fault.Excused (store : Store) (ev : Event) (f : Fault) : Prop :=
  f.Expected store ev ∨ f = .store .tooDeep

/-- An application keeps the world fit. It succeeds only for an event that can be decoded, and then it
changes only the accumulator of its tally; if it fails, the store stays. -/
theorem apply_spec (t : Tally) (hname : t.name ≠ "") (ev : Event) {b : Bench} (hb : b.world.Fit) :
    ((t.apply ev).run b).2.world.Fit ∧
      Within
        (fun f => f.Excused b.world.store ev ∧ ((t.apply ev).run b).2.world.store = b.world.store)
        (fun _ => ev.Decodable) ((t.apply ev).run b).1 := by
  obtain ⟨⟨hkeep, -⟩, hwithin⟩ :=
    keeps_attempt t b.world.store ev b ⟨⟨rfl, hb.sound⟩, fun _ _ => trivial⟩
  rw [run_apply]
  rcases hrun : (t.attempt ev).run b with ⟨fault | d, b'⟩
  · rw [hrun] at hkeep hwithin
    refine ⟨⟨?_, hkeep.2⟩, .inl hwithin, hkeep.1⟩
    rw [hkeep.1]
    exact hb.written
  · rw [hrun] at hkeep hwithin
    obtain ⟨hd, hdec, j, hj⟩ := hwithin
    dsimp only
    rcases hset : b.world.store.setTally t.name d with r | s
    · obtain rfl := Store.tooDeep_of_setTally hname hj hset
      refine ⟨⟨?_, hkeep.2⟩, .inr rfl, hkeep.1⟩
      rw [hkeep.1]
      exact hb.written
    · obtain ⟨-, text, htext, rfl⟩ := Store.setTally_eq_ok_iff.mp hset
      exact ⟨⟨hb.written.withTally t.name hd htext, hkeep.2⟩, hdec⟩

end Tally

end EventTally
