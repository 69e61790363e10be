import EventTally.Proofs.Eval.Invariant
import EventTally.Tally.Handle

/-! # The work of a tally

Handling an event never writes to the store and keeps the heap sound. It fails or crashes in a field of
the rule, or it fails for the number in a record that cannot be decoded; an event with such a record is
never handled.
-/

namespace EventTally

namespace Event

/-- A record of the event that cannot be decoded. -/
def Undecodable (ev : Event) (r : Reason) : Prop :=
  ∃ fields, (ev.old = some fields ∨ ev.new = some fields) ∧ record ev.model fields = .error r

def Decodable (ev : Event) : Prop :=
  ∀ fields, ev.old = some fields ∨ ev.new = some fields → ∃ d, record ev.model fields = .ok d

theorem Undecodable.not_decodable {ev : Event} {r : Reason} (h : ev.Undecodable r) :
    ¬ ev.Decodable := by
  intro hdec
  obtain ⟨fields, hfields, herror⟩ := h
  obtain ⟨d, hd⟩ := hdec fields hfields
  rw [hd] at herror
  cases herror

theorem of_record {P : Datum → Prop} (hP : Codec.PlainClosed P) {model : String} {fields : Fields}
    {d : Datum} (h : record model fields = .ok d) : P d := by
  obtain ⟨entries, hentries, h⟩ := Codec.bind_eq_ok h
  cases h
  have hvalue : ∀ e ∈ Keyed.ofEntries (("__class__", Datum.str model) :: entries), P e.2 := by
    intro e he
    rcases List.mem_cons.mp (Codec.mem_ofEntries he) with rfl | he
    · exact hP.atom _
    · obtain ⟨⟨name, j⟩, -, hj⟩ := Codec.mapM_eq_ok hentries e he
      obtain ⟨d, hd, hj⟩ := Codec.bind_eq_ok hj
      cases hj
      exact hP.of_decodePlain hd
  refine hP.dict ?_ ?_ <;> simp only [List.mem_map] <;> rintro _ ⟨e, he, rfl⟩
  · exact ⟨_, rfl⟩
  · exact hvalue e he

end Event

namespace Tally

/-- The world is in `I`, and the scope of the tally is in `Own` once it has been made. -/
def Upheld (I : World → Prop) (Own : ScopeRef → Prop) (b : Bench) : Prop :=
  I b.world ∧ ∀ s, b.scope = some s → Own s

abbrev Kept (store : Store) : Bench → Prop :=
  Upheld (fun w => w.store = store ∧ w.heap.Sound) Anything

def Fault.InField : Fault → Prop
  | .field .. | .crashed => True
  | _ => False

/-- A field of the rule failed or crashed, or a record of the event cannot be decoded. -/
def Fault.InEvent (ev : Event) : Fault → Prop
  | .field .. | .crashed => True
  | .record r => ev.Undecodable r
  | .store _ => False

variable {t : Tally} {α : Type} {E : Fault → Prop} {I : World → Prop} {Own : ScopeRef → Prop}
  {Key : Value → Prop}

theorem Fault.InField.inEvent {f : Fault} (h : f.InField) (ev : Event) : f.InEvent ev := by
  cases f with
  | field rule f cause => trivial
  | record r => cases h
  | store r => cases h
  | crashed => trivial

theorem faultIn_inField (t : Tally) (f : RuleField) (e : EventTally.Fault) : (t.faultIn f e).InField := by
  cases e <;> trivial

theorem run_evaluating (f : RuleField) (act : EvalM α) (b : Bench) :
    (t.evaluating f act).run b = match act.run b.world with
      | (.ok a, world) => (.ok a, { b with world })
      | (.error e, world) => (.error (t.faultIn f e), { b with world }) :=
  rfl

section

variable (inv : EvalM.Invariant I Own Key) (hE : ∀ f : Fault, f.InField → E f)

include hE in
theorem keeps_evaluating (f : RuleField) {act : EvalM α} {Q : α → Prop}
    (hact : Keeps I Anything Q act) : Keeps (Upheld I Own) E Q (t.evaluating f act) := by
  intro b hb
  obtain ⟨hkeep, hwithin⟩ := hact b.world hb.1
  rw [run_evaluating]
  rcases hrun : act.run b.world with ⟨e | a, w⟩
  · rw [hrun] at hkeep
    exact ⟨⟨hkeep, hb.2⟩, hE _ (t.faultIn_inField f e)⟩
  · rw [hrun] at hkeep hwithin
    exact ⟨⟨hkeep, hb.2⟩, hwithin⟩

include hE in
theorem keeps_reject (f : RuleField) (r : Reason) {Q : α → Prop} :
    Keeps (Upheld I Own) E Q (t.reject f r) :=
  Keeps.throw (hE _ trivial)

include inv

theorem keeps_newDict {groups : List (Value × Value)} (hgroups : ∀ e ∈ groups, Key e.1) :
    Keeps (Upheld I Own) E Anything (allocate (·.newDict groups)) :=
  fun _ hb => ⟨⟨inv.newDict hgroups hb.1, hb.2⟩, trivial⟩

theorem keeps_allocate_thaw {d : Datum} (hd : d.Sound) :
    Keeps (Upheld I Own) E Anything (allocate (·.thaw d)) :=
  fun _ hb => ⟨⟨EvalM.thaw_keeps inv hd hb.1, hb.2⟩, trivial⟩

include hE

theorem keeps_baseScope : Keeps (Upheld I Own) E Own t.baseScope := by
  refine Keeps.get_bind fun b hb => ?_
  split
  · next s hs => exact Keeps.pure (hb.2 s hs)
  · refine Keeps.bind (Q := Own) (keeps_evaluating hE _ ?_) fun s hs => ?_
    · refine (EvalM.keeps_newScope inv _).bind fun s hs => ?_
      exact (EvalM.keeps_eval inv _ _ hs).bind fun _ _ => Keeps.pure hs
    · intro b hb
      refine ⟨⟨hb.1, ?_⟩, hs⟩
      rintro _ ⟨⟩
      exact hs

theorem keeps_run (f : RuleField) (bindings : List (String × Value)) :
    Keeps (Upheld I Own) E Anything (t.run f bindings) := by
  refine (keeps_baseScope inv hE).bind fun base _ => keeps_evaluating hE f ?_
  refine (EvalM.keeps_newScope inv base).bind fun s hs => ?_
  exact (EvalM.keeps_bindAll inv hs bindings).bind fun _ _ => EvalM.keeps_eval inv _ _ hs

theorem keeps_initial : Keeps (Upheld I Own) E Anything t.initial := by
  unfold initial
  split
  · exact (keeps_newDict inv (by simp)).bind fun r _ => Keeps.pure (anything _)
  · exact keeps_run inv hE _ _

theorem keeps_filter (v : Value) : Keeps (Upheld I Own) E Anything (t.filter v) :=
  (keeps_run inv hE _ _).bind fun _ _ => Keeps.get_bind fun _ _ => Keeps.pure (anything _)

theorem keeps_group (v : Value) : Keeps (Upheld I Own) E Anything (t.group v) := by
  unfold group
  split
  · exact Keeps.pure (anything _)
  · exact keeps_run inv hE _ _

theorem keeps_changeFound (g old new acc : Value) {groups : List (Value × Value)}
    (hgroups : ∀ e ∈ groups, Key e.1) :
    Keeps (Upheld I Own) E (fun groups => ∀ e ∈ groups, Key e.1) (do
      let acc ← t.change acc old new
      match (← heap).insertEntry g acc groups with
      | .ok groups => return groups
      | .error r => t.reject .getGroup r) := by
  refine (keeps_run inv hE _ _).bind fun acc _ => Keeps.get_bind fun b _ => ?_
  split
  · next hins => exact Keeps.pure (Heap.keys_insertEntry inv.hashable hgroups hins)
  · exact keeps_reject hE _ _

theorem keeps_changeGroup (g old new : Value) {groups : List (Value × Value)}
    (hgroups : ∀ e ∈ groups, Key e.1) :
    Keeps (Upheld I Own) E (fun groups => ∀ e ∈ groups, Key e.1)
      (t.changeGroup g old new groups) := by
  refine Keeps.get_bind fun b _ => ?_
  split
  · exact keeps_changeFound inv hE g old new _ hgroups
  · exact (keeps_run inv hE _ _).bind fun acc _ => keeps_changeFound inv hE g old new acc hgroups

theorem keeps_changeNonNull (g old new : Value) {groups : List (Value × Value)}
    (hgroups : ∀ e ∈ groups, Key e.1) :
    Keeps (Upheld I Own) E (fun groups => ∀ e ∈ groups, Key e.1)
      (t.changeNonNull g old new groups) := by
  unfold changeNonNull
  split
  · exact Keeps.pure hgroups
  · exact keeps_changeGroup inv hE g old new hgroups

theorem keeps_changeGroups (old new : Value) {groups : List (Value × Value)}
    (hgroups : ∀ e ∈ groups, Key e.1) :
    Keeps (Upheld I Own) E (fun groups => ∀ e ∈ groups, Key e.1)
      (t.changeGroups old new groups) := by
  refine (keeps_group inv hE old).bind fun oldGroup _ => ?_
  refine (keeps_group inv hE new).bind fun newGroup _ => ?_
  refine Keeps.get_bind fun b _ => ?_
  split
  · exact keeps_changeNonNull inv hE _ _ _ hgroups
  · refine (keeps_changeNonNull inv hE _ _ _ hgroups).bind fun groups hgroups => ?_
    exact keeps_changeNonNull inv hE _ _ _ hgroups
  · exact Keeps.throw (hE _ trivial)

theorem keeps_changeGrouped (acc old new : Value) :
    Keeps (Upheld I Own) E Anything (t.changeGrouped acc old new) := by
  unfold changeGrouped
  split
  · refine Keeps.get_bind fun b hb => ?_
    refine (keeps_changeGroups inv hE old new (inv.keys hb.1 _)).bind fun groups hgroups => ?_
    exact (keeps_newDict inv hgroups).bind fun r _ => Keeps.pure (anything _)
  · exact keeps_reject hE _ _

theorem keeps_filteredValue (model : String) (fields : Option Fields)
    (hrecord : ∀ fs r, fields = some fs → Event.record model fs = .error r → E (.record r)) :
    Keeps (Upheld I Own) E (fun _ => ∀ fs, fields = some fs → ∃ d, Event.record model fs = .ok d)
      (t.filteredValue model fields) := by
  cases fields with
  | none =>
    refine Keeps.pure ?_
    intro fs h
    cases h
  | some fs =>
    unfold filteredValue
    dsimp only
    split
    · next r hr => exact Keeps.throw (hrecord fs r rfl hr)
    · next d hd =>
      have hdone : ∀ fs', some fs = some fs' → ∃ d, Event.record model fs' = .ok d := by
        rintro fs' ⟨⟩
        exact ⟨d, hd⟩
      have hsound := Event.of_record Codec.plainClosed_sound hd
      refine (keeps_allocate_thaw inv hsound).bind fun record _ => ?_
      refine (keeps_run inv hE _ _).bind fun v _ => ?_
      split
      · exact Keeps.pure hdone
      · exact (keeps_filter inv hE v).bind fun pass _ => Keeps.pure hdone

end

theorem keeps_handle (inv : EvalM.Invariant I Own Key) (t : Tally) (acc : Value) (ev : Event) :
    Keeps (Upheld I Own) (Fault.InEvent ev) (fun _ => ev.Decodable) (t.handle acc ev) := by
  have hE : ∀ f : Fault, f.InField → f.InEvent ev := fun f hf => hf.inEvent ev
  have hold : ∀ fs r, ev.old = some fs → Event.record ev.model fs = .error r →
      (Fault.record r).InEvent ev := fun fs r hfs hr => ⟨fs, .inl hfs, hr⟩
  have hnew : ∀ fs r, ev.new = some fs → Event.record ev.model fs = .error r →
      (Fault.record r).InEvent ev := fun fs r hfs hr => ⟨fs, .inr hfs, hr⟩
  refine (keeps_filteredValue inv hE ev.model ev.old hold).bind fun old hold => ?_
  refine (keeps_filteredValue inv hE ev.model ev.new hnew).bind fun new hnew => ?_
  have hdec : ev.Decodable := by
    rintro fs (hfs | hfs)
    · exact hold fs hfs
    · exact hnew fs hfs
  split
  · exact Keeps.pure hdec
  · split
    · exact (keeps_changeGrouped inv hE acc old new).mono fun _ _ => hdec
    · exact (keeps_run inv hE _ _).mono fun _ _ => hdec

end Tally

end EventTally
