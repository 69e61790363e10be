import EventTally.Proofs.Heap.Extends
import EventTally.Proofs.Heap.Finite
import EventTally.Proofs.Tally.Pipeline
import EventTally.Proofs.Tally.Work

/-! # Tallies whose fields are functions

The fields of a tally are functions of their bindings if they compute what a pipeline does, whatever
else is in the heap, and change nothing that was there before. Handling events with such a tally is
running its pipeline on what its values show.
-/

namespace EventTally

namespace Tally

variable {α β δ γ : Type}

/-- From a bench a computation fails, or it gives a result that shows `d` and leaves all objects as
they were. -/
def Yields (Ready : Bench → Prop) (R : Heap → α → δ → Prop) (b : Bench) (act : RunM α) :
    Option δ → Prop
  | some d => ∃ a b', act.run b = (.ok a, b') ∧ Ready b' ∧
      b.world.heap.Extends b'.world.heap ∧ R b'.world.heap a d
  | none => ∃ fault b', act.run b = (.error fault, b')

/-- The fields of a tally compute what a pipeline does on any bench that is ready. -/
structure IsPure (t : Tally) (p : Pipeline) (Ready : Bench → Prop) : Prop where
  extend : ∀ {b h}, Ready b → b.world.heap.Extends h → Ready { b with world := { b.world with heap := h } }
  initial : ∀ {b}, Ready b → Yields Ready Heap.Shows b t.initialOfGroup p.initial
  value : ∀ {b v d}, Ready b → b.world.heap.Shows v d →
    Yields Ready Heap.Shows b (t.value v) (p.value d)
  filter : ∀ {b v d}, Ready b → b.world.heap.Shows v d →
    Yields Ready (fun _ => Eq) b (t.filter v) (p.filter d)
  group : ∀ {b v d}, Ready b → b.world.heap.Shows v d → d.isNull = false →
    Yields Ready Heap.Shows b (t.group v) (p.group d)
  change : ∀ {b acc old new dacc dold dnew}, Ready b → b.world.heap.Shows acc dacc →
    b.world.heap.Shows old dold → b.world.heap.Shows new dnew →
    Yields Ready Heap.Shows b (t.change acc old new) (p.change dacc dold dnew)

namespace Yields

variable {Ready : Bench → Prop} {R : Heap → α → δ → Prop} {S : Heap → β → γ → Prop} {b : Bench}

theorem pure (hb : Ready b) {a : α} {d : δ} (h : R b.world.heap a d) :
    Yields Ready R b (Pure.pure a) (some d) :=
  ⟨a, b, rfl, hb, .refl _, h⟩

theorem throw (fault : Fault) : Yields Ready R b (throw fault) none := ⟨fault, b, rfl⟩

theorem bind {x : RunM α} {f : α → RunM β} {r : Option δ} {k : δ → Option γ}
    (hx : Yields Ready R b x r)
    (hf : ∀ a d b', Ready b' → b.world.heap.Extends b'.world.heap → R b'.world.heap a d →
      Yields Ready S b' (f a) (k d)) : Yields Ready S b (x >>= f) (r >>= k) := by
  cases r with
  | none =>
    obtain ⟨fault, b', hrun⟩ := hx
    refine ⟨fault, b', ?_⟩
    rw [run_bind, hrun]
  | some d =>
    obtain ⟨a, b₁, hrun, hready, hext, hR⟩ := hx
    have hnext := hf a d b₁ hready hext hR
    rw [Option.bind_eq_bind, Option.bind_some]
    cases hk : k d with
    | none =>
      rw [hk] at hnext
      obtain ⟨fault, b', hrun'⟩ := hnext
      refine ⟨fault, b', ?_⟩
      rw [run_bind, hrun]
      exact hrun'
    | some c =>
      rw [hk] at hnext
      obtain ⟨a', b₂, hrun', hready', hext', hS⟩ := hnext
      refine ⟨a', b₂, ?_, hready', hext.trans hext', hS⟩
      rw [run_bind, hrun]
      exact hrun'

theorem foldlM {f : α → Event → RunM α} {g : δ → Event → Option δ}
    (hstep : ∀ {b a d} ev, Ready b → R b.world.heap a d → Yields Ready R b (f a ev) (g d ev))
    (evs : List Event) (hb : Ready b) {a : α} {d : δ} (h : R b.world.heap a d) :
    Yields Ready R b (evs.foldlM f a) (evs.foldlM g d) := by
  induction evs generalizing b a d with
  | nil => exact Yields.pure hb h
  | cons ev evs ih =>
    rw [List.foldlM_cons, List.foldlM_cons]
    exact (hstep ev hb h).bind fun a d b' hb' _ h' => ih hb' h'

end Yields

theorem isNull_eq {h : Heap} {v : Value} {d : Datum} (hv : h.Shows v d) : isNull v = d.isNull := by
  cases hd : d.isNull with
  | true =>
    rw [Pipeline.eq_null_of_isNull hd] at hv
    rw [hv.eq_atom]
    rfl
  | false =>
    unfold isNull
    split
    · rw [← hv.datum] at hd
      cases hd
    · rfl

/-- The accumulator of a grouped tally is a dict of groups. -/
def Holds (h : Heap) (acc : Value) (groups : List (Datum × Datum)) : Prop :=
  ∃ r : DictRef, acc = .dict r ∧ r.id < h.dicts.size ∧
    List.Forall₂ h.ShowsEntry (h.entries r) groups

theorem Holds.mono {h h' : Heap} {acc : Value} {groups : List (Datum × Datum)}
    (hacc : Holds h acc groups) (hext : h.Extends h') : Holds h' acc groups := by
  obtain ⟨r, rfl, hr, hentries⟩ := hacc
  refine ⟨r, rfl, hr.trans_le hext.dicts.size_le, ?_⟩
  rw [hext.entries hr]
  exact hentries.imp fun _ _ he => he.mono hext

theorem Holds.newDict {h : Heap} {entries : List (Value × Value)} {groups : List (Datum × Datum)}
    (hentries : List.Forall₂ h.ShowsEntry entries groups) :
    Holds (h.newDict entries).2 (.dict (h.newDict entries).1) groups := by
  have hnew : (h.newDict entries).2.entries (h.newDict entries).1 = entries := by
    simp [Heap.newDict, Heap.entries]
  refine ⟨_, rfl, ?_, ?_⟩
  · simp [Heap.newDict]
  · rw [hnew]
    exact hentries.imp fun _ _ he => he.mono (Heap.Extends.newDict h entries)

theorem Holds.datum {h : Heap} {acc : Value} {groups : List (Datum × Datum)}
    (hacc : Holds h acc groups) : h.datum acc = .dict groups := by
  obtain ⟨r, rfl, -, hentries⟩ := hacc
  refine Heap.SeenAs.datum (k := h.objectCount + 1) fun n hn => ?_
  obtain ⟨n, rfl⟩ : ∃ m, n = m + 1 := ⟨n - 1, by omega⟩
  have hviews := Heap.entryViews_eq_of_shows (.refl h) (Nat.le_of_succ_le_succ hn) hentries
  exact congrArg Datum.dict hviews

/-- Handles events one after the other from the accumulator before any. -/
def replay (t : Tally) (evs : List Event) : RunM Value := do evs.foldlM t.handle (← t.initial)

theorem Yields.heap_bind {Ready : Bench → Prop} {S : Heap → β → γ → Prop} {b : Bench}
    {f : Heap → RunM β} {r : Option γ} (h : Yields Ready S b (f b.world.heap) r) :
    Yields Ready S b (heap >>= f) r := by
  cases r with
  | none => exact h
  | some d => exact h

namespace IsPure

variable {t : Tally} {p : Pipeline} {Ready : Bench → Prop} (hpure : t.IsPure p Ready) {b : Bench}
include hpure

theorem yields_thaw (hb : Ready b) {d : Datum} (hd : d.Inert) :
    Yields Ready Heap.Shows b (allocate (·.thaw d)) (some d) := by
  obtain ⟨hext, hshows⟩ := b.world.heap.thaw_shows hd
  exact ⟨_, _, rfl, hpure.extend hb hext, hext, hshows⟩

theorem yields_filteredValue (hb : Ready b) (model : String) (fields : Option Fields) :
    Yields Ready Heap.Shows b (t.filteredValue model fields) (p.filtered model fields) := by
  cases fields with
  | none => exact Yields.pure hb (Heap.shows_atom _ _)
  | some fields =>
    unfold filteredValue Pipeline.filtered
    dsimp only
    rcases hrecord : Event.record model fields with r | d
    · exact Yields.throw _
    · have hinert := Event.of_record Codec.plainClosed_inert hrecord
      refine Yields.bind (k := p.counted) (hpure.yields_thaw hb hinert) fun v d b hb _ hv => ?_
      refine (hpure.value hb hv).bind fun v d b hb _ hv => ?_
      rw [isNull_eq hv]
      split
      · exact Yields.pure hb (Heap.shows_atom _ _)
      · refine (hpure.filter hb hv).bind fun pass pass' b hb hext hpass => ?_
        subst hpass
        refine Yields.pure hb ?_
        cases pass with
        | true => exact hv.mono hext
        | false => exact Heap.shows_atom _ _

theorem yields_group (hb : Ready b) {v : Value} {d : Datum} (hv : b.world.heap.Shows v d) :
    Yields Ready Heap.Shows b (t.group v) (p.groupOf d) := by
  unfold Pipeline.groupOf
  cases hd : d.isNull with
  | true =>
    rw [Pipeline.eq_null_of_isNull hd] at hv
    rw [hv.eq_atom]
    exact Yields.pure hb (Heap.shows_atom _ _)
  | false => exact hpure.group hb hv hd

theorem yields_changeFound (hb : Ready b) {g old new acc : Value} {dg dold dnew dacc : Datum}
    (hg : b.world.heap.Shows g dg) (hold : b.world.heap.Shows old dold)
    (hnew : b.world.heap.Shows new dnew) (hacc : b.world.heap.Shows acc dacc)
    {entries : List (Value × Value)} {groups : List (Datum × Datum)}
    (hentries : List.Forall₂ b.world.heap.ShowsEntry entries groups) :
    Yields Ready (fun h => List.Forall₂ h.ShowsEntry) b (do
      let acc ← t.change acc old new
      match (← heap).insertEntry g acc entries with
      | .ok groups => return groups
      | .error r => t.reject .getGroup r) (do
      let acc ← p.change dacc dold dnew
      if dg.hashable then return Keyed.insert dg.sameKey dg acc groups else none) := by
  refine (hpure.change hb hacc hold hnew).bind ?_
  intro acc dacc b' hb' hext hacc
  refine Yields.heap_bind ?_
  unfold Heap.insertEntry Heap.hashable
  rw [(hg.mono hext).datum]
  split
  · next hok =>
    split at hok
    · next hhashable =>
      cases hok
      rw [if_pos hhashable]
      refine Yields.pure hb' (Heap.insert_shows (hg.mono hext) ?_ hacc)
      exact hentries.imp fun _ _ he => he.mono hext
    · cases hok
  · next herror =>
    split at herror
    · cases herror
    · next hhashable =>
      rw [if_neg hhashable]
      exact Yields.throw _

theorem yields_changeGroup (hb : Ready b) {g old new : Value} {dg dold dnew : Datum}
    (hg : b.world.heap.Shows g dg) (hold : b.world.heap.Shows old dold)
    (hnew : b.world.heap.Shows new dnew) {entries : List (Value × Value)}
    {groups : List (Datum × Datum)}
    (hentries : List.Forall₂ b.world.heap.ShowsEntry entries groups) :
    Yields Ready (fun h => List.Forall₂ h.ShowsEntry) b (t.changeNonNull g old new entries)
      (p.changeGroup dg dold dnew groups) := by
  unfold changeNonNull Pipeline.changeGroup
  rw [isNull_eq hg]
  split
  · exact Yields.pure hb hentries
  · refine Yields.heap_bind ?_
    have hfind := Heap.findEntry_shows hg hentries
    generalize b.world.heap.findEntry entries g = found at hfind ⊢
    generalize Keyed.find? dg.sameKey groups = found' at hfind ⊢
    cases hfind with
    | some hacc => exact hpure.yields_changeFound hb hg hold hnew hacc hentries
    | none =>
      refine (hpure.initial hb).bind fun acc dacc b' hb' hext hacc => ?_
      exact hpure.yields_changeFound hb' (hg.mono hext) (hold.mono hext) (hnew.mono hext) hacc
        (hentries.imp fun _ _ he => he.mono hext)

theorem yields_changeGroups (hb : Ready b) {old new : Value} {dold dnew : Datum}
    (hold : b.world.heap.Shows old dold) (hnew : b.world.heap.Shows new dnew)
    {entries : List (Value × Value)} {groups : List (Datum × Datum)}
    (hentries : List.Forall₂ b.world.heap.ShowsEntry entries groups) :
    Yields Ready (fun h => List.Forall₂ h.ShowsEntry) b (t.changeGroups old new entries)
      (p.changeGroups dold dnew groups) := by
  refine (hpure.yields_group hb hold).bind fun oldGroup dOldGroup b₁ hb₁ hext₁ holdGroup => ?_
  have hold₁ := hold.mono hext₁
  have hnew₁ := hnew.mono hext₁
  refine (hpure.yields_group hb₁ hnew₁).bind fun newGroup dNewGroup b₂ hb₂ hext₂ hnewGroup => ?_
  have hold₂ := hold₁.mono hext₂
  have hnew₂ := hnew₁.mono hext₂
  have holdGroup₂ := holdGroup.mono hext₂
  have hentries₂ := hentries.imp fun _ _ he => he.mono (hext₁.trans hext₂)
  refine Yields.heap_bind ?_
  rw [Heap.equal?_of_isFinite holdGroup₂.isFinite hnewGroup.isFinite, Heap.equal, holdGroup₂.datum,
    hnewGroup.datum]
  cases dOldGroup.equal dNewGroup with
  | true => exact hpure.yields_changeGroup hb₂ hnewGroup hold₂ hnew₂ hentries₂
  | false =>
    have hnull := b₂.world.heap.shows_atom .null
    refine (hpure.yields_changeGroup hb₂ holdGroup₂ hold₂ hnull hentries₂).bind ?_
    intro entries groups b₃ hb₃ hext₃ hentries₃
    exact hpure.yields_changeGroup hb₃ (hnewGroup.mono hext₃) (hnull.mono hext₃) (hnew₂.mono hext₃)
      hentries₃

theorem yields_newDict (hb : Ready b) {entries : List (Value × Value)}
    {groups : List (Datum × Datum)}
    (hentries : List.Forall₂ b.world.heap.ShowsEntry entries groups) :
    Yields Ready Holds b (do return .dict (← allocate (·.newDict entries))) (some groups) := by
  have hext := Heap.Extends.newDict b.world.heap entries
  exact ⟨_, _, rfl, hpure.extend hb hext, hext, .newDict hentries⟩

theorem yields_handle (hplain : t.grouped = false) (hb : Ready b) {acc : Value} {dacc : Datum}
    (hacc : b.world.heap.Shows acc dacc) (ev : Event) :
    Yields Ready Heap.Shows b (t.handle acc ev) (p.plain dacc ev) := by
  refine (hpure.yields_filteredValue hb ev.model ev.old).bind fun old dold b₁ hb₁ hext₁ hold => ?_
  refine (hpure.yields_filteredValue hb₁ ev.model ev.new).bind fun new dnew b₂ hb₂ hext₂ hnew => ?_
  have hold₂ := hold.mono hext₂
  have hacc₂ := hacc.mono (hext₁.trans hext₂)
  rw [isNull_eq hold₂, isNull_eq hnew, hplain]
  split
  · exact Yields.pure hb₂ hacc₂
  · exact hpure.change hb₂ hacc₂ hold₂ hnew

theorem yields_handle_groups (hgrouped : t.grouped = true) (hb : Ready b) {acc : Value}
    {groups : List (Datum × Datum)} (hacc : Holds b.world.heap acc groups) (ev : Event) :
    Yields Ready Holds b (t.handle acc ev) (p.grouped groups ev) := by
  refine (hpure.yields_filteredValue hb ev.model ev.old).bind fun old dold b₁ hb₁ hext₁ hold => ?_
  refine (hpure.yields_filteredValue hb₁ ev.model ev.new).bind fun new dnew b₂ hb₂ hext₂ hnew => ?_
  have hold₂ := hold.mono hext₂
  have hacc₂ := hacc.mono (hext₁.trans hext₂)
  rw [isNull_eq hold₂, isNull_eq hnew, hgrouped]
  split
  · exact Yields.pure hb₂ hacc₂
  · obtain ⟨r, rfl, -, hentries⟩ := hacc₂
    refine Yields.heap_bind ?_
    have hchange := hpure.yields_changeGroups hb₂ hold₂ hnew hentries
    rw [← bind_pure (p.changeGroups dold dnew groups)]
    exact hchange.bind fun entries groups b₃ hb₃ _ hentries => hpure.yields_newDict hb₃ hentries

theorem yields_replay (hplain : t.grouped = false) (hb : Ready b) (evs : List Event) :
    Yields Ready Heap.Shows b (t.replay evs) (p.run evs) := by
  unfold replay Tally.initial
  rw [hplain]
  refine (hpure.initial hb).bind fun acc dacc b' hb' _ hacc => ?_
  exact Yields.foldlM (fun ev hb hacc => hpure.yields_handle hplain hb hacc ev) evs hb' hacc

theorem yields_replay_groups (hgrouped : t.grouped = true) (hb : Ready b) (evs : List Event) :
    Yields Ready Holds b (t.replay evs) (evs.foldlM p.grouped []) := by
  unfold replay Tally.initial
  rw [hgrouped]
  refine Yields.bind (k := fun groups => evs.foldlM p.grouped groups)
    (hpure.yields_newDict hb .nil) fun acc groups b' hb' _ hacc => ?_
  exact Yields.foldlM (fun ev hb hacc => hpure.yields_handle_groups hgrouped hb hacc ev) evs hb' hacc

end IsPure

end Tally

end EventTally
