import EventTally.Proofs.Codec
import EventTally.Proofs.Keyed
import EventTally.Tally.Event

/-! # Rules as functions on data

A pipeline is what the fields of a rule compute when they are functions of their bindings. It runs
over events without heap and scopes: plainly, with one accumulator, or by groups, with a list of
them. The accumulator of a group is that of the plain run in which only values of the group count
(`runGrouped_find?`), provided that the groups which equal it have its hash.
-/

namespace EventTally

def Datum.isNull : Datum → Bool
  | .null => true
  | _ => false

/-- What the fields of a rule compute; none where they fail. -/
structure Pipeline where
  initial : Option Datum
  value : Datum → Option Datum
  filter : Datum → Option Bool
  group : Datum → Option Datum
  change : Datum → Datum → Datum → Option Datum

namespace Pipeline

/-- The value of a record if it counts, else null. -/
def counted (p : Pipeline) (record : Datum) : Option Datum := do
  let v ← p.value record
  if v.isNull then return .null
  else return if ← p.filter v then v else .null

/-- The value that counts of the record before or after an event; null if there is no record. -/
def filtered (p : Pipeline) (model : String) : Option Fields → Option Datum
  | none => some .null
  | some fields =>
    match Event.record model fields with
    | .error _ => none
    | .ok record => p.counted record

def groupOf (p : Pipeline) (v : Datum) : Option Datum := if v.isNull then some .null else p.group v

def plain (p : Pipeline) (acc : Datum) (ev : Event) : Option Datum := do
  let old ← p.filtered ev.model ev.old
  let new ← p.filtered ev.model ev.new
  if old.isNull && new.isNull then return acc else p.change acc old new

/-- The accumulator after events. -/
def run (p : Pipeline) (evs : List Event) : Option Datum := do evs.foldlM p.plain (← p.initial)

/-- Changes the accumulator of a group, which starts from the initial one, unless the group is
null. -/
def changeGroup (p : Pipeline) (g old new : Datum) (groups : List (Datum × Datum)) :
    Option (List (Datum × Datum)) :=
  if g.isNull then return groups
  else do
    let acc ← (Keyed.find? g.sameKey groups).or p.initial
    let acc ← p.change acc old new
    if g.hashable then return Keyed.insert g.sameKey g acc groups else none

def changeGroups (p : Pipeline) (old new : Datum) (groups : List (Datum × Datum)) :
    Option (List (Datum × Datum)) := do
  let oldGroup ← p.groupOf old
  let newGroup ← p.groupOf new
  if oldGroup.equal newGroup then p.changeGroup newGroup old new groups
  else p.changeGroup newGroup .null new (← p.changeGroup oldGroup old .null groups)

/-- The groups after an event. -/
def grouped (p : Pipeline) (groups : List (Datum × Datum)) (ev : Event) :
    Option (List (Datum × Datum)) := do
  let old ← p.filtered ev.model ev.old
  let new ← p.filtered ev.model ev.new
  if old.isNull && new.isNull then return groups else p.changeGroups old new groups

/-- The pipeline in which only the values of a group count. -/
def only (p : Pipeline) (g : Datum) : Pipeline :=
  { p with filter := fun v => do
      if ← p.filter v then return (← p.group v).equal g else return false }

/-- The group, not null, of the value before or after an event. -/
def Occurs (p : Pipeline) (ev : Event) (k : Datum) : Prop :=
  k.isNull = false ∧ ∃ v, (p.filtered ev.model ev.old = some v ∨ p.filtered ev.model ev.new = some v) ∧
    p.groupOf v = some k

/-- The old or the new value of an event is in a group. -/
def Touches (p : Pipeline) (g : Datum) (ev : Event) : Prop := ∃ k, p.Occurs ev k ∧ k.equal g = true

/-- The groups of an event that equal `g` have its hash. -/
def HashesAs (p : Pipeline) (g : Datum) (ev : Event) : Prop :=
  ∀ k, p.Occurs ev k → k.equal g = true → k.hash = g.hash

/-- Equality of data is an equivalence on `G`. -/
structure EqualOn (G : Datum → Prop) : Prop where
  refl : ∀ {a}, G a → a.equal a = true
  symm : ∀ {a b}, G a → G b → a.equal b = true → b.equal a = true
  trans : ∀ {a b c}, G a → G b → G c → a.equal b = true → b.equal c = true → a.equal c = true

theorem eq_null_of_isNull {d : Datum} (h : d.isNull = true) : d = .null := by
  unfold Datum.isNull at h
  split at h
  · rfl
  · cases h

theorem null_equal (d : Datum) : Datum.equal .null d = d.isNull := by
  cases d with
  | atom a => cases a <;> simp [Datum.equal, Atom.equal, Datum.isNull]
  | _ => simp [Datum.equal, Datum.isNull]

theorem equal_null (d : Datum) : d.equal .null = d.isNull := by
  cases d with
  | atom a => cases a <;> simp [Datum.equal, Atom.equal, Datum.isNull]
  | _ => simp [Datum.equal, Datum.isNull]

theorem isNull_of_equal {k g : Datum} (hg : g.isNull = false) (h : k.equal g = true) :
    k.isNull = false := by
  cases hk : k.isNull with
  | false => rfl
  | true =>
    rw [eq_null_of_isNull hk, null_equal, hg] at h
    cases h

theorem groupOf_null (p : Pipeline) {v : Datum} (h : v.isNull = true) : p.groupOf v = some .null := if_pos h

theorem isNull_of_groupOf {p : Pipeline} {v k : Datum} (hk : p.groupOf v = some k)
    (hnull : k.isNull = false) : v.isNull = false ∧ p.group v = some k := by
  unfold groupOf at hk
  split at hk
  · cases hk
    cases hnull
  · next hv => exact ⟨Bool.eq_false_iff.mpr hv, hk⟩

theorem counted_only (p : Pipeline) {g : Datum} (hg : g.isNull = false) {record v k : Datum}
    (hv : p.counted record = some v) (hk : p.groupOf v = some k) :
    (p.only g).counted record = some (if k.equal g then v else .null) := by
  have hnone : p.groupOf .null = some k → k.equal g = false := by
    rintro ⟨⟩
    rw [null_equal, hg]
  unfold counted at hv ⊢
  change (p.value record >>= _) = _
  obtain ⟨x, hx, hv⟩ := Option.bind_eq_some_iff.mp hv
  rw [hx, Option.bind_eq_bind, Option.bind_some]
  cases hnull : x.isNull with
  | true =>
    rw [hnull] at hv
    cases hv
    simp [hnone hk]
  | false =>
    rw [hnull] at hv
    obtain ⟨pass, hpass, hv⟩ := Option.bind_eq_some_iff.mp hv
    cases pass with
    | false =>
      cases hv
      simp [only, hpass]
    | true =>
      have hxv : x = v := Option.some.inj hv
      subst hxv
      have hgroup : p.group x = some k := by
        rw [groupOf, hnull] at hk
        exact hk
      simp [only, hpass, hgroup]

theorem filtered_only (p : Pipeline) {g : Datum} (hg : g.isNull = false) {model : String}
    {fields : Option Fields} {v k : Datum} (hv : p.filtered model fields = some v)
    (hk : p.groupOf v = some k) :
    (p.only g).filtered model fields = some (if k.equal g then v else .null) := by
  cases fields with
  | none =>
    cases hv
    exact congrArg some (ite_self _).symm
  | some fields =>
    unfold filtered at hv ⊢
    dsimp only at hv ⊢
    rcases hrecord : Event.record model fields with r | record
    · rw [hrecord] at hv
      cases hv
    · rw [hrecord] at hv
      exact p.counted_only hg hv hk

theorem HashesAs.sameKey_eq {p : Pipeline} {g : Datum} {ev : Event} (hhash : p.HashesAs g ev)
    (hg : g.isNull = false) {v k : Datum}
    (hv : p.filtered ev.model ev.old = some v ∨ p.filtered ev.model ev.new = some v)
    (hk : p.groupOf v = some k) : k.sameKey g = k.equal g := by
  unfold Datum.sameKey
  cases hequal : k.equal g with
  | false => rfl
  | true =>
    rw [hhash k ⟨isNull_of_equal hg hequal, v, hv, hk⟩ hequal, beq_self_eq_true, Bool.and_self]

section

variable {p : Pipeline} {g : Datum} (hg : g.isNull = false) {ev : Event}
  {old new oldGroup newGroup : Datum}
  (hold : p.filtered ev.model ev.old = some old) (hnew : p.filtered ev.model ev.new = some new)
  (holdGroup : p.groupOf old = some oldGroup) (hnewGroup : p.groupOf new = some newGroup)
include hg hold hnew holdGroup hnewGroup

theorem plain_only (acc : Datum) :
    (p.only g).plain acc ev =
      if oldGroup.equal g || newGroup.equal g then
        p.change acc (if oldGroup.equal g then old else .null) (if newGroup.equal g then new else .null)
      else some acc := by
  unfold plain
  rw [p.filtered_only hg hold holdGroup, p.filtered_only hg hnew hnewGroup, Option.bind_eq_bind,
    Option.bind_some, Option.bind_some]
  cases ho : oldGroup.equal g with
  | true =>
    have hnull := (isNull_of_groupOf holdGroup (isNull_of_equal hg ho)).1
    simp [hnull, only]
  | false =>
    cases hn : newGroup.equal g with
    | true =>
      have hnull := (isNull_of_groupOf hnewGroup (isNull_of_equal hg hn)).1
      simp [hnull, only]
    | false => simp [Datum.isNull]

theorem touches_iff : p.Touches g ev ↔ (oldGroup.equal g || newGroup.equal g) = true := by
  rw [Bool.or_eq_true]
  constructor
  · rintro ⟨k, ⟨-, v, hv | hv, hk⟩, hequal⟩
    · cases hold.symm.trans hv
      cases holdGroup.symm.trans hk
      exact .inl hequal
    · cases hnew.symm.trans hv
      cases hnewGroup.symm.trans hk
      exact .inr hequal
  · rintro (hequal | hequal)
    · exact ⟨oldGroup, ⟨isNull_of_equal hg hequal, old, .inl hold, holdGroup⟩, hequal⟩
    · exact ⟨newGroup, ⟨isNull_of_equal hg hequal, new, .inr hnew, hnewGroup⟩, hequal⟩

end

inductive Regroups (p : Pipeline) (groups : List (Datum × Datum)) (ev : Event) : List (Datum × Datum) → Prop
  /-- Neither value counts. -/
  | idle {old new : Datum} (hold : p.filtered ev.model ev.old = some old)
      (hnew : p.filtered ev.model ev.new = some new) (hnull : old.isNull = true) (hnull' : new.isNull = true) :
      Regroups p groups ev groups
  /-- Both values are in one group. -/
  | stays {old new oldGroup newGroup : Datum} {groups' : List (Datum × Datum)}
      (hold : p.filtered ev.model ev.old = some old) (hnew : p.filtered ev.model ev.new = some new)
      (holdGroup : p.groupOf old = some oldGroup) (hnewGroup : p.groupOf new = some newGroup)
      (hsame : oldGroup.equal newGroup = true) (h : p.changeGroup newGroup old new groups = some groups') :
      Regroups p groups ev groups'
  /-- The value leaves one group and comes into another. -/
  | moves {old new oldGroup newGroup : Datum} {groups₁ groups' : List (Datum × Datum)}
      (hold : p.filtered ev.model ev.old = some old) (hnew : p.filtered ev.model ev.new = some new)
      (holdGroup : p.groupOf old = some oldGroup) (hnewGroup : p.groupOf new = some newGroup)
      (hdiffer : ¬ oldGroup.equal newGroup = true)
      (hleave : p.changeGroup oldGroup old .null groups = some groups₁)
      (hcome : p.changeGroup newGroup .null new groups₁ = some groups') : Regroups p groups ev groups'

theorem regroups_of_grouped {p : Pipeline} {groups groups' : List (Datum × Datum)} {ev : Event}
    (h : p.grouped groups ev = some groups') : Regroups p groups ev groups' := by
  obtain ⟨old, hold, h⟩ := Option.bind_eq_some_iff.mp h
  obtain ⟨new, hnew, h⟩ := Option.bind_eq_some_iff.mp h
  split at h
  · next hnull =>
    obtain ⟨hnull, hnull'⟩ := Bool.and_eq_true_iff.mp hnull
    cases h
    exact .idle hold hnew hnull hnull'
  · obtain ⟨oldGroup, holdGroup, h⟩ := Option.bind_eq_some_iff.mp h
    obtain ⟨newGroup, hnewGroup, h⟩ := Option.bind_eq_some_iff.mp h
    split at h
    · next hsame => exact .stays hold hnew holdGroup hnewGroup hsame h
    · next hdiffer =>
      obtain ⟨groups₁, hleave, hcome⟩ := Option.bind_eq_some_iff.mp h
      exact .moves hold hnew holdGroup hnewGroup hdiffer hleave hcome

section

variable {p : Pipeline} {G : Datum → Prop} (hG : EqualOn G)
include hG

theorem equal_comm {a b : Datum} (ha : G a) (hb : G b) : a.equal b = b.equal a := by
  rw [Bool.eq_iff_iff]
  exact ⟨hG.symm ha hb, hG.symm hb ha⟩

theorem equal_left {a b c : Datum} (ha : G a) (hb : G b) (hc : G c) (hab : a.equal b = true) :
    a.equal c = b.equal c := by
  rw [Bool.eq_iff_iff]
  constructor
  · exact hG.trans hb ha hc (hG.symm ha hb hab)
  · exact hG.trans ha hb hc hab

theorem sameKey_self {a : Datum} (ha : G a) : a.sameKey a = true := by
  rw [Datum.sameKey, hG.refl ha, beq_self_eq_true, Bool.and_self]

theorem sameKey_comm {a b : Datum} (ha : G a) (hb : G b) : a.sameKey b = b.sameKey a := by
  unfold Datum.sameKey
  rw [equal_comm hG ha hb, BEq.comm]

theorem sameKey_left {a b c : Datum} (ha : G a) (hb : G b) (hc : G c) (hab : a.sameKey b = true) :
    a.sameKey c = b.sameKey c := by
  rw [Datum.sameKey, Bool.and_eq_true, beq_iff_eq] at hab
  unfold Datum.sameKey
  rw [equal_left hG ha hb hc hab.1, hab.2]

theorem find?_congr {k g : Datum} (hk : G k) (hg : G g) (hsame : k.sameKey g = true)
    {groups : List (Datum × Datum)} (hgroups : ∀ e ∈ groups, G e.1) :
    Keyed.find? k.sameKey groups = Keyed.find? g.sameKey groups := by
  induction groups with
  | nil => rfl
  | cons e groups ih =>
    obtain ⟨he, hrest⟩ := List.forall_mem_cons.mp hgroups
    rw [Keyed.find?_cons, Keyed.find?_cons, ih hrest, sameKey_left hG hk hg he hsame]

theorem find?_insertGroup {k g : Datum} (hk : G k) (hg : G g) (acc : Datum)
    {groups : List (Datum × Datum)} (hgroups : ∀ e ∈ groups, G e.1) :
    Keyed.find? g.sameKey (Keyed.insert k.sameKey k acc groups) =
      if k.sameKey g then some acc else Keyed.find? g.sameKey groups := by
  rw [sameKey_comm hG hk hg]
  refine Keyed.find?_insert k acc ?_ ?_
  · intro hgk e he
    exact sameKey_left hG hg hk (hgroups e he) hgk
  · intro hgk e he hke
    have hGe := hgroups e he
    rw [sameKey_comm hG hg hGe, ← sameKey_left hG hk hGe hg hke, sameKey_comm hG hk hg]
    exact hgk

theorem changeGroup_find? {k old new : Datum} (hk : k.isNull = false → G k)
    {groups groups' : List (Datum × Datum)} (hgroups : ∀ e ∈ groups, G e.1)
    (h : p.changeGroup k old new groups = some groups') :
    (∀ e ∈ groups', G e.1) ∧ ∀ g, G g → g.isNull = false →
      if k.sameKey g then ∃ acc acc', (Keyed.find? g.sameKey groups).or p.initial = some acc ∧
        p.change acc old new = some acc' ∧ Keyed.find? g.sameKey groups' = some acc'
      else Keyed.find? g.sameKey groups' = Keyed.find? g.sameKey groups := by
  unfold changeGroup at h
  cases hnull : k.isNull with
  | true =>
    rw [hnull] at h
    cases h
    refine ⟨hgroups, fun g hg hgnull => ?_⟩
    rw [Datum.sameKey, eq_null_of_isNull hnull, null_equal, hgnull]
    rfl
  | false =>
    rw [hnull] at h
    have hGk := hk hnull
    obtain ⟨acc, hacc, h⟩ := Option.bind_eq_some_iff.mp h
    obtain ⟨acc', hacc', h⟩ := Option.bind_eq_some_iff.mp h
    split at h
    · cases h
      constructor
      · intro e he
        rcases Codec.mem_insert he with rfl | he
        · exact hGk
        · exact hgroups e he
      · intro g hg hgnull
        rw [find?_insertGroup hG hGk hg acc' hgroups]
        cases hkg : k.sameKey g with
        | false => rfl
        | true =>
          rw [find?_congr hG hGk hg hkg hgroups] at hacc
          exact ⟨acc, acc', hacc, hacc', rfl⟩
    · cases h

theorem changeGroup_contains {k old new : Datum} (hk : k.isNull = false → G k)
    {groups groups' : List (Datum × Datum)} (hgroups : ∀ e ∈ groups, G e.1)
    (h : p.changeGroup k old new groups = some groups') {g : Datum} (hg : G g)
    (hgnull : g.isNull = false)
    (hwhy : (Keyed.find? g.sameKey groups).isSome = true ∨ k.sameKey g = true) :
    (Keyed.find? g.sameKey groups').isSome = true := by
  have hfind := (changeGroup_find? hG hk hgroups h).2 g hg hgnull
  cases hkg : k.sameKey g with
  | true =>
    rw [hkg] at hfind
    obtain ⟨acc, acc', -, -, hfound⟩ := hfind
    rw [hfound]
    rfl
  | false =>
    rw [hkg] at hfind hwhy
    rw [hfind]
    exact hwhy.resolve_right Bool.false_ne_true

theorem equal_congr {a b g : Datum} (ha : a.isNull = false → G a) (hb : b.isNull = false → G b)
    (hab : a.equal b = true) (hg : G g) : a.equal g = b.equal g := by
  cases hnull : b.isNull with
  | true =>
    rw [eq_null_of_isNull hnull, equal_null] at hab
    rw [eq_null_of_isNull hnull, eq_null_of_isNull hab]
  | false => exact equal_left hG (ha (isNull_of_equal hnull hab)) (hb hnull) hg hab

/-- An event changes the accumulators of the groups that it touches as the plain pipeline of the group
does, and no others. -/
theorem grouped_step {groups groups' : List (Datum × Datum)} {ev : Event}
    (hmem : ∀ k, p.Occurs ev k → G k) (hgroups : ∀ e ∈ groups, G e.1)
    (h : p.grouped groups ev = some groups') :
    (∀ e ∈ groups', G e.1) ∧ ∀ g, G g → g.isNull = false → p.HashesAs g ev →
      (p.Touches g ev ∧ ∃ acc acc', (Keyed.find? g.sameKey groups).or p.initial = some acc ∧
        (p.only g).plain acc ev = some acc' ∧ Keyed.find? g.sameKey groups' = some acc') ∨
      (¬ p.Touches g ev ∧ Keyed.find? g.sameKey groups' = Keyed.find? g.sameKey groups ∧
        ∀ acc, (p.only g).plain acc ev = some acc) := by
  cases regroups_of_grouped h with
  | idle hold hnew hnull hnull' =>
    have holdGroup := groupOf_null p hnull
    have hnewGroup := groupOf_null p hnull'
    refine ⟨hgroups, fun g hg hgnull _ => .inr ⟨?_, rfl, fun acc => ?_⟩⟩
    · rw [touches_iff hgnull hold hnew holdGroup hnewGroup, null_equal, hgnull]
      simp
    · rw [plain_only hgnull hold hnew holdGroup hnewGroup, null_equal, hgnull]
      rfl
  | @stays old new oldGroup newGroup _ hold hnew holdGroup hnewGroup hsame h =>
    have hGold (hnull : oldGroup.isNull = false) : G oldGroup := hmem _ ⟨hnull, old, .inl hold, holdGroup⟩
    have hGnew (hnull : newGroup.isNull = false) : G newGroup := hmem _ ⟨hnull, new, .inr hnew, hnewGroup⟩
    obtain ⟨hgroups', hfind⟩ := changeGroup_find? hG hGnew hgroups h
    refine ⟨hgroups', fun g hg hgnull hhash => ?_⟩
    have hfind := hfind g hg hgnull
    rw [hhash.sameKey_eq hgnull (.inr hnew) hnewGroup] at hfind
    rw [touches_iff hgnull hold hnew holdGroup hnewGroup]
    simp only [plain_only hgnull hold hnew holdGroup hnewGroup]
    rw [equal_congr hG hGold hGnew hsame hg]
    cases hn : newGroup.equal g with
    | true =>
      rw [hn] at hfind
      exact .inl ⟨rfl, hfind⟩
    | false =>
      rw [hn] at hfind
      exact .inr ⟨by simp, hfind, fun _ => rfl⟩
  | @moves old new oldGroup newGroup _ _ hold hnew holdGroup hnewGroup hdiffer hleave hcome =>
    have hGold (hnull : oldGroup.isNull = false) : G oldGroup := hmem _ ⟨hnull, old, .inl hold, holdGroup⟩
    have hGnew (hnull : newGroup.isNull = false) : G newGroup := hmem _ ⟨hnull, new, .inr hnew, hnewGroup⟩
    obtain ⟨hgroups₁, hfind₁⟩ := changeGroup_find? hG hGold hgroups hleave
    obtain ⟨hgroups', hfind⟩ := changeGroup_find? hG hGnew hgroups₁ hcome
    refine ⟨hgroups', fun g hg hgnull hhash => ?_⟩
    have hfind₁ := hfind₁ g hg hgnull
    rw [hhash.sameKey_eq hgnull (.inl hold) holdGroup] at hfind₁
    have hfind := hfind g hg hgnull
    rw [hhash.sameKey_eq hgnull (.inr hnew) hnewGroup] at hfind
    rw [touches_iff hgnull hold hnew holdGroup hnewGroup]
    simp only [plain_only hgnull hold hnew holdGroup hnewGroup]
    cases ho : oldGroup.equal g with
    | true =>
      have hGo := hGold (isNull_of_equal hgnull ho)
      cases hn : newGroup.equal g with
      | true =>
        have hGn := hGnew (isNull_of_equal hgnull hn)
        exact absurd (hG.trans hGo hg hGn ho (hG.symm hGn hg hn)) hdiffer
      | false =>
        rw [ho] at hfind₁
        rw [hn] at hfind
        obtain ⟨acc, acc', hacc, hchange, hfound⟩ := hfind₁
        exact .inl ⟨rfl, acc, acc', hacc, hchange, hfind.trans hfound⟩
    | false =>
      rw [ho] at hfind₁
      cases hn : newGroup.equal g with
      | true =>
        rw [hn, hfind₁] at hfind
        exact .inl ⟨rfl, hfind⟩
      | false =>
        rw [hn] at hfind
        exact .inr ⟨by simp, hfind.trans hfind₁, fun _ => rfl⟩

/-- The group of the value after an event is there once the event is handled, and so are those that
were there before. -/
theorem grouped_contains {groups groups' : List (Datum × Datum)} {ev : Event}
    (hmem : ∀ k, p.Occurs ev k → G k) (hgroups : ∀ e ∈ groups, G e.1)
    (h : p.grouped groups ev = some groups') {g : Datum} (hg : G g)
    (hgnull : g.isNull = false)
    (hwhy : (Keyed.find? g.sameKey groups).isSome = true ∨
      ∃ v, p.filtered ev.model ev.new = some v ∧ p.groupOf v = some g) :
    (Keyed.find? g.sameKey groups').isSome = true := by
  have hcomes {new newGroup : Datum} (hnew : p.filtered ev.model ev.new = some new)
      (hnewGroup : p.groupOf new = some newGroup) :
      (Keyed.find? g.sameKey groups).isSome = true ∨ newGroup.sameKey g = true := by
    refine hwhy.imp_right ?_
    rintro ⟨v, hv, hgroup⟩
    cases hnew.symm.trans hv
    cases hnewGroup.symm.trans hgroup
    exact sameKey_self hG hg
  cases regroups_of_grouped h with
  | idle hold hnew hnull hnull' =>
    refine (hcomes hnew (groupOf_null p hnull')).resolve_right fun hsame => ?_
    rw [Datum.sameKey, null_equal, hgnull] at hsame
    cases hsame
  | @stays old new oldGroup newGroup _ hold hnew holdGroup hnewGroup hsame h =>
    have hGnew (hnull : newGroup.isNull = false) : G newGroup := hmem _ ⟨hnull, new, .inr hnew, hnewGroup⟩
    exact changeGroup_contains hG hGnew hgroups h hg hgnull (hcomes hnew hnewGroup)
  | @moves old new oldGroup newGroup _ _ hold hnew holdGroup hnewGroup hdiffer hleave hcome =>
    have hGold (hnull : oldGroup.isNull = false) : G oldGroup := hmem _ ⟨hnull, old, .inl hold, holdGroup⟩
    have hGnew (hnull : newGroup.isNull = false) : G newGroup := hmem _ ⟨hnull, new, .inr hnew, hnewGroup⟩
    have hgroups₁ := (changeGroup_find? hG hGold hgroups hleave).1
    refine changeGroup_contains hG hGnew hgroups₁ hcome hg hgnull ?_
    refine (hcomes hnew hnewGroup).imp_left fun hfound => ?_
    exact changeGroup_contains hG hGold hgroups hleave hg hgnull (.inl hfound)

/-- Along events, a group that is touched has the accumulator of the plain pipeline of the group, and
one that is not touched stays. -/
theorem runGrouped_find? {evs : List Event} {groups groups' : List (Datum × Datum)}
    (hmem : ∀ ev ∈ evs, ∀ k, p.Occurs ev k → G k) (hgroups : ∀ e ∈ groups, G e.1)
    (h : evs.foldlM p.grouped groups = some groups') :
    ∀ g, G g → g.isNull = false → (∀ ev ∈ evs, p.HashesAs g ev) →
      ((∃ ev ∈ evs, p.Touches g ev) ∧ ∃ acc acc',
        (Keyed.find? g.sameKey groups).or p.initial = some acc ∧
        evs.foldlM (p.only g).plain acc = some acc' ∧ Keyed.find? g.sameKey groups' = some acc') ∨
      ((¬ ∃ ev ∈ evs, p.Touches g ev) ∧
        Keyed.find? g.sameKey groups' = Keyed.find? g.sameKey groups ∧
        ∀ acc, evs.foldlM (p.only g).plain acc = some acc) := by
  intro g hg hgnull hhash
  induction evs generalizing groups with
  | nil =>
    cases h
    exact .inr ⟨by simp, rfl, fun _ => rfl⟩
  | cons ev evs ih =>
    rw [List.foldlM_cons] at h
    obtain ⟨groups₁, hstep, hrest⟩ := Option.bind_eq_some_iff.mp h
    obtain ⟨hmem, hmems⟩ := List.forall_mem_cons.mp hmem
    obtain ⟨hgroups₁, hfind⟩ := grouped_step hG hmem hgroups hstep
    obtain ⟨hhash, hhashes⟩ := List.forall_mem_cons.mp hhash
    simp only [List.foldlM_cons, List.exists_mem_cons_iff]
    obtain ⟨htouch, acc, acc₁, hacc, hplain, hfound⟩ | ⟨htouch, hfound, hplain⟩ :=
      hfind g hg hgnull hhash
    · obtain ⟨-, acc₂, acc', hacc₂, hplains, hfound'⟩ | ⟨-, hfound', hplains⟩ :=
        ih hmems hgroups₁ hrest hhashes
      · rw [hfound, Option.some_or] at hacc₂
        cases hacc₂
        refine .inl ⟨.inl htouch, acc, acc', hacc, ?_, hfound'⟩
        rw [hplain]
        exact hplains
      · refine .inl ⟨.inl htouch, acc, acc₁, hacc, ?_, hfound'.trans hfound⟩
        rw [hplain]
        exact hplains acc₁
    · obtain ⟨htouch', acc, acc', hacc, hplains, hfound'⟩ | ⟨htouch', hfound', hplains⟩ :=
        ih hmems hgroups₁ hrest hhashes
      · refine .inl ⟨.inr htouch', acc, acc', hfound ▸ hacc, ?_, hfound'⟩
        rw [hplain]
        exact hplains
      · refine .inr ⟨?_, hfound'.trans hfound, fun acc => ?_⟩
        · rintro (h | h)
          · exact htouch h
          · exact htouch' h
        · rw [hplain]
          exact hplains acc

/-- From no groups, the groups that are there are those that were touched, each with the accumulator of
its plain pipeline. -/
theorem runGrouped_eq_run {evs : List Event} {groups : List (Datum × Datum)}
    (hmem : ∀ ev ∈ evs, ∀ k, p.Occurs ev k → G k) (h : evs.foldlM p.grouped [] = some groups)
    {g : Datum} (hg : G g) (hgnull : g.isNull = false) (hhash : ∀ ev ∈ evs, p.HashesAs g ev) :
    ((∃ a, Keyed.find? g.sameKey groups = some a) ↔ ∃ ev ∈ evs, p.Touches g ev) ∧
      ∀ a, Keyed.find? g.sameKey groups = some a → (p.only g).run evs = some a := by
  obtain ⟨htouched, acc, a, hinitial, hplain, hfound⟩ | ⟨huntouched, hfound, -⟩ :=
    runGrouped_find? hG hmem (by simp) h g hg hgnull hhash
  · refine ⟨iff_of_true ⟨a, hfound⟩ htouched, fun a' ha' => ?_⟩
    cases hfound.symm.trans ha'
    have hinitial : (p.only g).initial = some acc := hinitial
    rw [run, hinitial]
    exact hplain
  · rw [Keyed.find?_nil] at hfound
    rw [hfound]
    refine ⟨iff_of_false ?_ huntouched, ?_⟩
    · rintro ⟨a, ⟨⟩⟩
    · rintro a ⟨⟩

end

end Pipeline

end EventTally
