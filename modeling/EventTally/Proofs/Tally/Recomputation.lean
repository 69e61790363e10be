import EventTally.Proofs.Tally.Formulas
import Mathlib.Algebra.BigOperators.Group.Multiset.Basic

/-! # Tallies of live records

Events say how the records that are live change. A tally that adds a weight for each new value and
subtracts that of the old one keeps the sum of the weights of the live records, for all of them or by
groups, in integers that wrap around.
-/

namespace EventTally

instance addCommMonoidInt64 : AddCommMonoid Int64 where
  add_assoc := Int64.add_assoc
  zero_add := Int64.zero_add
  add_zero := Int64.add_zero
  add_comm := Int64.add_comm
  nsmul := nsmulRec

namespace Event

def IsRecord (d : Datum) : Prop := ∃ model fields, record model fields = .ok d

/-- How an event changes the records that are live: a creation adds one, a deletion removes one that
is the same as the old record, and an update replaces one. -/
inductive Changes (Same : Datum → Datum → Prop) (ev : Event) : Multiset Datum → Multiset Datum → Prop
  | create {fields : Fields} {new : Datum} {live : Multiset Datum} (hold : ev.old = none)
      (hnew : ev.new = some fields) (hrecord : record ev.model fields = .ok new) :
      Changes Same ev live (new ::ₘ live)
  | delete {fields : Fields} {old d : Datum} {live : Multiset Datum} (hold : ev.old = some fields)
      (hrecord : record ev.model fields = .ok old) (hsame : Same old d) (hnew : ev.new = none) :
      Changes Same ev (d ::ₘ live) live
  | update {fields fields' : Fields} {old new d : Datum} {live : Multiset Datum}
      (hold : ev.old = some fields) (hrecord : record ev.model fields = .ok old)
      (hsame : Same old d) (hnew : ev.new = some fields')
      (hrecord' : record ev.model fields' = .ok new) :
      Changes Same ev (d ::ₘ live) (new ::ₘ live)

/-- The records that are live after events, one after the other. -/
inductive Leads (Same : Datum → Datum → Prop) :
    List Event → Multiset Datum → Multiset Datum → Prop
  | nil (live : Multiset Datum) : Leads Same [] live live
  | cons {ev : Event} {evs : List Event} {live live₁ live' : Multiset Datum}
      (hstep : Changes Same ev live live₁) (hrest : Leads Same evs live₁ live') :
      Leads Same (ev :: evs) live live'

theorem Changes.mem {Same : Datum → Datum → Prop} {ev : Event} {live live' : Multiset Datum}
    (h : ev.Changes Same live live') {d : Datum} (hd : d ∈ live') :
    d ∈ live ∨ ∃ fields, ev.new = some fields ∧ record ev.model fields = .ok d := by
  cases h with
  | create hold hnew hrecord =>
    rcases Multiset.mem_cons.mp hd with rfl | hd
    · exact .inr ⟨_, hnew, hrecord⟩
    · exact .inl hd
  | delete hold hrecord hsame hnew => exact .inl (Multiset.mem_cons_of_mem hd)
  | update hold hrecord hsame hnew hrecord' =>
    rcases Multiset.mem_cons.mp hd with rfl | hd
    · exact .inr ⟨_, hnew, hrecord'⟩
    · exact .inl (Multiset.mem_cons_of_mem hd)

end Event

namespace Pipeline

/-- The fields do not fail on records, and a change adds the weight of the new value and subtracts
that of the old one. -/
structure Additive (p : Pipeline) (c : Int64) (w : Datum → Int64) : Prop where
  value : ∀ {d}, Event.IsRecord d → ∃ v, p.value d = some v
  filter : ∀ {d v}, Event.IsRecord d → p.value d = some v → v.isNull = false →
    ∃ pass, p.filter v = some pass
  group : ∀ {d v}, Event.IsRecord d → p.value d = some v → v.isNull = false →
    p.filter v = some true → ∃ g, p.group v = some g ∧ g.hashable = true
  initial : p.initial = some (.int c)
  null : w .null = 0
  change : ∀ a old new, p.change (.int a) old new = some (.int (a + w new - w old))

/-- The values of records that count. -/
def values (p : Pipeline) (live : Multiset Datum) : Multiset Datum :=
  live.filterMap fun d => (p.counted d).filter fun v => !v.isNull

variable {p : Pipeline} {c : Int64} {w : Datum → Int64} {Same : Datum → Datum → Prop}

theorem values_cons {d v : Datum} (hv : p.counted d = some v) (live : Multiset Datum) :
    p.values (d ::ₘ live) = if v.isNull then p.values live else v ::ₘ p.values live := by
  unfold values
  cases hnull : v.isNull with
  | true => exact Multiset.filterMap_cons_none _ _ (by simp [hv, hnull])
  | false => exact Multiset.filterMap_cons_some _ _ _ (by simp [hv, hnull])

namespace Additive

theorem sum_cons (hadd : p.Additive c w) {d v : Datum} (hv : p.counted d = some v)
    (live : Multiset Datum) :
    ((p.values (d ::ₘ live)).map w).sum = w v + ((p.values live).map w).sum := by
  rw [values_cons hv]
  cases hnull : v.isNull with
  | true =>
    rw [eq_null_of_isNull hnull, hadd.null]
    exact (zero_add _).symm
  | false =>
    rw [if_neg Bool.false_ne_true, Multiset.map_cons, Multiset.sum_cons]

theorem counted (hadd : p.Additive c w) {d : Datum} (hd : Event.IsRecord d) :
    ∃ v, p.counted d = some v ∧
      ∃ k, p.groupOf v = some k ∧ (k.isNull = false → k.hashable = true) := by
  have hnull : ∃ k, p.groupOf .null = some k ∧ (k.isNull = false → k.hashable = true) :=
    ⟨.null, rfl, fun h => by cases h⟩
  obtain ⟨v, hv⟩ := hadd.value hd
  unfold Pipeline.counted
  rw [hv, Option.bind_eq_bind, Option.bind_some]
  cases hvnull : v.isNull with
  | true => exact ⟨.null, rfl, hnull⟩
  | false =>
    obtain ⟨pass, hpass⟩ := hadd.filter hd hv hvnull
    rw [hpass]
    cases pass with
    | false => exact ⟨.null, rfl, hnull⟩
    | true =>
      obtain ⟨g, hg, hhashable⟩ := hadd.group hd hv hvnull hpass
      refine ⟨v, rfl, g, ?_, fun _ => hhashable⟩
      rw [groupOf, hvnull]
      exact hg

theorem only (hadd : p.Additive c w) (g : Datum) : (p.only g).Additive c w where
  value := hadd.value
  filter {d v} hd hv hnull := by
    obtain ⟨pass, hpass⟩ := hadd.filter hd hv hnull
    cases pass with
    | false => exact ⟨false, by simp [Pipeline.only, hpass]⟩
    | true =>
      obtain ⟨k, hk, -⟩ := hadd.group hd hv hnull hpass
      exact ⟨k.equal g, by simp [Pipeline.only, hpass, hk]⟩
  group {d v} hd hv hnull hpass := by
    obtain ⟨pass, hpass', hk⟩ := Option.bind_eq_some_iff.mp hpass
    cases pass with
    | false => cases hk
    | true => exact hadd.group hd hv hnull hpass'
  initial := hadd.initial
  null := hadd.null
  change := hadd.change

variable (hsame : ∀ d e, Same d e → p.value d = p.value e)
include hsame

theorem step (hadd : p.Additive c w) {ev : Event} {live live' : Multiset Datum}
    (hlive : ∀ d ∈ live, Event.IsRecord d) (hstep : ev.Changes Same live live') :
    (∀ d ∈ live', Event.IsRecord d) ∧ ∃ old new rest,
      p.filtered ev.model ev.old = some old ∧ p.filtered ev.model ev.new = some new ∧
      ((p.values live).map w).sum = w old + rest ∧ ((p.values live').map w).sum = w new + rest := by
  have hcounted : ∀ {d e}, Same d e → p.counted d = p.counted e := by
    intro d e hde
    unfold Pipeline.counted
    rw [hsame d e hde]
  have hnull : ∀ a : Int64, a = w .null + a := by
    intro a
    rw [hadd.null]
    exact (zero_add a).symm
  cases hstep with
  | @create fields new _ hold hnew hrecord =>
    have hd : Event.IsRecord new := ⟨_, _, hrecord⟩
    obtain ⟨v, hv, -⟩ := hadd.counted hd
    refine ⟨Multiset.forall_mem_cons.mpr ⟨hd, hlive⟩, .null, v, _, ?_, ?_, hnull _, hadd.sum_cons hv _⟩
    · rw [hold]
      rfl
    · rw [hnew, filtered, hrecord]
      exact hv
  | @delete fields old d _ hold hrecord hde hnew =>
    obtain ⟨v, hv, -⟩ := hadd.counted (d := old) ⟨_, _, hrecord⟩
    have hv' := (hcounted hde).symm.trans hv
    refine ⟨(Multiset.forall_mem_cons.mp hlive).2, v, .null, _, ?_, ?_, hadd.sum_cons hv' _, hnull _⟩
    · rw [hold, filtered, hrecord]
      exact hv
    · rw [hnew]
      rfl
  | @update fields fields' old new d _ hold hrecord hde hnew hrecord' =>
    have hd : Event.IsRecord new := ⟨_, _, hrecord'⟩
    obtain ⟨v, hv, -⟩ := hadd.counted (d := old) ⟨_, _, hrecord⟩
    obtain ⟨v', hv', -⟩ := hadd.counted hd
    have hlive' := Multiset.forall_mem_cons.mpr ⟨hd, (Multiset.forall_mem_cons.mp hlive).2⟩
    refine ⟨hlive', v, v', _, ?_, ?_, hadd.sum_cons ((hcounted hde).symm.trans hv) _,
      hadd.sum_cons hv' _⟩
    · rw [hold, filtered, hrecord]
      exact hv
    · rw [hnew, filtered, hrecord']
      exact hv'

theorem plain_step (hadd : p.Additive c w) {ev : Event} {live live' : Multiset Datum}
    (hlive : ∀ d ∈ live, Event.IsRecord d) (hstep : ev.Changes Same live live') :
    p.plain (.int (c + ((p.values live).map w).sum)) ev =
      some (.int (c + ((p.values live').map w).sum)) := by
  obtain ⟨-, old, new, rest, hold, hnew, hsum, hsum'⟩ := hadd.step hsame hlive hstep
  unfold plain
  rw [hold, hnew, hsum, hsum', Option.bind_eq_bind, Option.bind_some, Option.bind_some]
  split
  · next hnull =>
    rw [Bool.and_eq_true] at hnull
    rw [eq_null_of_isNull hnull.1, eq_null_of_isNull hnull.2]
    rfl
  · rw [hadd.change]
    congr 3
    grind

theorem plain_run (hadd : p.Additive c w) {evs : List Event} {live live' : Multiset Datum}
    (hlive : ∀ d ∈ live, Event.IsRecord d) (hleads : Event.Leads Same evs live live') :
    (∀ d ∈ live', Event.IsRecord d) ∧
      evs.foldlM p.plain (.int (c + ((p.values live).map w).sum)) =
        some (.int (c + ((p.values live').map w).sum)) := by
  induction hleads with
  | nil live => exact ⟨hlive, rfl⟩
  | cons hstep hrest ih =>
    have hlive₁ := (hadd.step hsame hlive hstep).1
    obtain ⟨hlive', hrun⟩ := ih hlive₁
    refine ⟨hlive', ?_⟩
    rw [List.foldlM_cons, hadd.plain_step hsame hlive hstep]
    exact hrun

theorem run (hadd : p.Additive c w) {evs : List Event} {live : Multiset Datum}
    (hleads : Event.Leads Same evs 0 live) :
    (∀ d ∈ live, Event.IsRecord d) ∧
      p.run evs = some (.int (c + ((p.values live).map w).sum)) := by
  have hnone : ∀ d ∈ (0 : Multiset Datum), Event.IsRecord d := by
    intro d hd
    cases Multiset.notMem_zero d hd
  have hstart : c + ((p.values 0).map w).sum = c := Int64.add_zero c
  obtain ⟨hlive, hrun⟩ := hadd.plain_run hsame hnone hleads
  refine ⟨hlive, ?_⟩
  rw [Pipeline.run, hadd.initial]
  rw [hstart] at hrun
  exact hrun

omit hsame

theorem filtered (hadd : p.Additive c w) (model : String) {fields : Option Fields}
    (hdec : ∀ fs, fields = some fs → ∃ d, Event.record model fs = .ok d) :
    ∃ v, p.filtered model fields = some v ∧
      ∃ k, p.groupOf v = some k ∧ (k.isNull = false → k.hashable = true) := by
  cases fields with
  | none => exact ⟨.null, rfl, .null, rfl, fun h => by cases h⟩
  | some fs =>
    obtain ⟨d, hd⟩ := hdec fs rfl
    rw [Pipeline.filtered, hd]
    exact hadd.counted ⟨model, fs, hd⟩

theorem changeGroup (hadd : p.Additive c w) {k : Datum} (hk : k.isNull = false → k.hashable = true)
    (old new : Datum) {groups : List (Datum × Datum)} (hgroups : ∀ e ∈ groups, ∃ a, e.2 = .int a) :
    ∃ groups', p.changeGroup k old new groups = some groups' ∧ ∀ e ∈ groups', ∃ a, e.2 = .int a := by
  unfold Pipeline.changeGroup
  cases hnull : k.isNull with
  | true => exact ⟨groups, rfl, hgroups⟩
  | false =>
    have hacc : ∃ a, (Keyed.find? k.sameKey groups).or p.initial = some (.int a) := by
      cases hfind : Keyed.find? k.sameKey groups with
      | none => exact ⟨c, hadd.initial⟩
      | some acc =>
        obtain ⟨e, he, rfl⟩ := Option.map_eq_some_iff.mp hfind
        obtain ⟨a, ha⟩ := hgroups e (List.mem_of_find?_eq_some he)
        exact ⟨a, congrArg some ha⟩
    obtain ⟨a, ha⟩ := hacc
    refine ⟨Keyed.insert k.sameKey k (.int (a + w new - w old)) groups, ?_, ?_⟩
    · simp [ha, hadd.change, hk hnull]
    · intro e he
      rcases Codec.mem_insert he with rfl | he
      · exact ⟨_, rfl⟩
      · exact hgroups e he

theorem grouped (hadd : p.Additive c w) {ev : Event} (hdec : ev.Decodable)
    {groups : List (Datum × Datum)} (hgroups : ∀ e ∈ groups, ∃ a, e.2 = .int a) :
    ∃ groups', p.grouped groups ev = some groups' ∧ ∀ e ∈ groups', ∃ a, e.2 = .int a := by
  obtain ⟨old, hold, oldGroup, holdGroup, hhashOld⟩ :=
    hadd.filtered ev.model fun fs h => hdec fs (.inl h)
  obtain ⟨new, hnew, newGroup, hnewGroup, hhashNew⟩ :=
    hadd.filtered ev.model fun fs h => hdec fs (.inr h)
  unfold Pipeline.grouped Pipeline.changeGroups
  rw [hold, hnew, Option.bind_eq_bind, Option.bind_some, Option.bind_some]
  split
  · exact ⟨groups, rfl, hgroups⟩
  · rw [holdGroup, hnewGroup, Option.bind_some, Option.bind_some]
    split
    · exact hadd.changeGroup hhashNew old new hgroups
    · obtain ⟨groups₁, hfirst, hgroups₁⟩ := hadd.changeGroup hhashOld old .null hgroups
      rw [hfirst]
      exact hadd.changeGroup hhashNew .null new hgroups₁

end Additive

/-- The groups of records are in `G` and in the dict. -/
def Covers (p : Pipeline) (G : Datum → Prop) (groups : List (Datum × Datum))
    (live : Multiset Datum) : Prop :=
  ∀ d ∈ live, ∀ v k, p.counted d = some v → p.groupOf v = some k → k.isNull = false →
    G k ∧ (Keyed.find? k.sameKey groups).isSome = true

namespace Covers

variable {G : Datum → Prop} (hG : EqualOn G)
include hG

theorem step {ev : Event} (hmem : ∀ k, p.Occurs ev k → G k) {live live' : Multiset Datum}
    (hstep : ev.Changes Same live live') {groups groups' : List (Datum × Datum)}
    (hgroups : ∀ e ∈ groups, G e.1) (h : p.grouped groups ev = some groups')
    (hcovers : p.Covers G groups live) : p.Covers G groups' live' := by
  intro d hd v k hv hk hnull
  rcases hstep.mem hd with hd | ⟨fields, hnew, hrecord⟩
  · obtain ⟨hGk, hfound⟩ := hcovers d hd v k hv hk hnull
    exact ⟨hGk, grouped_contains hG hmem hgroups h hGk hnull (.inl hfound)⟩
  · have hfiltered : p.filtered ev.model ev.new = some v := by
      rw [hnew, filtered, hrecord]
      exact hv
    have hGk := hmem k ⟨hnull, v, .inr hfiltered, hk⟩
    exact ⟨hGk, grouped_contains hG hmem hgroups h hGk hnull (.inr ⟨v, hfiltered, hk⟩)⟩

theorem run {evs : List Event} (hmem : ∀ ev ∈ evs, ∀ k, p.Occurs ev k → G k)
    {live live' : Multiset Datum} (hleads : Event.Leads Same evs live live')
    {groups groups' : List (Datum × Datum)} (hgroups : ∀ e ∈ groups, G e.1)
    (h : evs.foldlM p.grouped groups = some groups') (hcovers : p.Covers G groups live) :
    p.Covers G groups' live' := by
  induction hleads generalizing groups with
  | nil live =>
    cases h
    exact hcovers
  | cons hstep hrest ih =>
    obtain ⟨hmem, hmems⟩ := List.forall_mem_cons.mp hmem
    rw [List.foldlM_cons] at h
    obtain ⟨groups₁, hfirst, h⟩ := Option.bind_eq_some_iff.mp h
    have hgroups₁ := (grouped_step hG hmem hgroups hfirst).1
    exact ih hmems hgroups₁ h (step hG hmem hstep hgroups hfirst hcovers)

end Covers

end Pipeline

namespace Tally

variable {t : Tally} {p : Pipeline} {Ready : Bench → Prop} {G : Datum → Prop} {b : Bench}
  {c : Int64} {w : Datum → Int64} {Same : Datum → Datum → Prop} {evs : List Event}
  {live : Multiset Datum}

end Tally

namespace Formulas

end Formulas

namespace Tally

end Tally

end EventTally
