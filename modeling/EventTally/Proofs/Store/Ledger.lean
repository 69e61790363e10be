import EventTally.Proofs.Codec.Nesting
import EventTally.Proofs.Tally.Settle

/-! # Stores as maps of accumulators

A store holds texts, but to its users it is a map from names to accumulators with a history beside it.
`Permits` says in terms of such a map what an operation may answer and what it leaves: reading gives the
accumulator that was written last, up to the order of its dicts and sets, an update asks for an initial
accumulator only if there is none, and one that fails anywhere writes nothing. Every sequence of operations
on a store that was empty is permitted (`permits_performAll`).

What is written has to be read back, so accumulators are data whose texts are read back. One that is nested
too deep is refused, except at the limit, where it can be written and cannot be read
(`deep_accumulator_unreadable`).
-/

namespace EventTally

/-- A datum whose text, if it has one, is read back: its keys are hashable and apart, and it is nested no
deeper than texts that are read may be, unless it is nested too deep to be written. -/
structure Accumulator where
  datum : Datum
  sound : datum.Sound
  apart : datum.KeysApart
  shallow : ∀ j, Codec.encode datum = .ok j → j.opened ≤ Json.maxDepth → j.depth ≤ Json.maxDepth

namespace Store

variable {σ ε : Type}

/-- What is done to a store. The two computations of an update work on a state of their own, and both
may fail. -/
inductive Operation (σ ε : Type) where
  | tally (name : String)
  | setTally (name : String) (a : Accumulator)
  | update (name : String) (init : ExceptT ε (StateM σ) Datum)
      (f : Datum → ExceptT ε (StateM σ) Accumulator)
  | delTally (name : String)
  | tallyNames
  | addHistory (code : String)
  | latest (n : Int)
  | trimHistory (keep : Int)

inductive Reply (ε : Type) where
  | done
  | datum (d : Datum)
  | names (ns : List String)
  | number (n : Nat)
  | entries (es : List HistoryEntry)
  | failed (e : ε)

def dataWorkshop (refuse : Reason → ε) : Workshop (ExceptT ε (StateM σ)) Datum where
  load d := pure d
  save d := pure d
  refuse r := throw (refuse r)

/-- The computation of an accumulator as that of its datum. -/
def change (f : Datum → ExceptT ε (StateM σ) Accumulator) (d : Datum) : ExceptT ε (StateM σ) Datum := do
  return (← f d).datum

/-- The reply to an operation, the store after it, and the state that the computations of an update have
come to. The store's own failures are reported by `refuse`. -/
def perform (refuse : Reason → ε) (s : Store) (c : σ) : Operation σ ε → Reply ε × Store × σ
  | .tally name =>
    match s.tally name with
    | .ok d => (.datum d, s, c)
    | .error r => (.failed (refuse r), s, c)
  | .setTally name a =>
    match s.setTally name a.datum with
    | .ok s => (.done, s, c)
    | .error r => (.failed (refuse r), s, c)
  | .update name init f =>
    match (s.update (dataWorkshop refuse) name init (change f)).run c with
    | (.ok (d, s), c) => (.datum d, s, c)
    | (.error e, c) => (.failed e, s, c)
  | .delTally name => (.done, s.delTally name, c)
  | .tallyNames => (.names s.tallyNames, s, c)
  | .addHistory code => (.number (s.addHistory code).1, (s.addHistory code).2, c)
  | .latest n => (.entries (s.latest n), s, c)
  | .trimHistory keep => (.number (s.trimHistory keep).1, (s.trimHistory keep).2, c)

def performAll (refuse : Reason → ε) (s : Store) (c : σ) :
    List (Operation σ ε) → List (Reply ε) × Store × σ
  | [] => ([], s, c)
  | op :: ops =>
    let (reply, s, c) := s.perform refuse c op
    let (replies, s, c) := s.performAll refuse c ops
    (reply :: replies, s, c)

/-- What a store stands for: the accumulators, and its history as that of a store without any. -/
structure Ledger where
  accumulators : String → Option Accumulator
  past : Store

namespace Ledger

def empty : Ledger := { accumulators := fun _ => none, past := .empty }

def write (l : Ledger) (name : String) (a : Accumulator) : Ledger :=
  { l with accumulators := Function.update l.accumulators name (some a) }

def erase (l : Ledger) (name : String) : Ledger :=
  { l with accumulators := Function.update l.accumulators name none }

theorem accumulators_write (l : Ledger) (name : String) (a : Accumulator) (x : String) :
    (l.write name a).accumulators x = if x = name then some a else l.accumulators x :=
  Function.update_apply ..

theorem accumulators_erase (l : Ledger) (name x : String) :
    (l.erase name).accumulators x = if x = name then none else l.accumulators x :=
  Function.update_apply ..

end Ledger

/-- Why an accumulator cannot be written under a name, if it cannot. -/
def refusal? (name : String) (a : Accumulator) : Option Reason :=
  match Codec.marshal a.datum with
  | .error r => some r
  | .ok _ => if name = "" then some .keyRequired else none

/-- Where an update gets the accumulator that it works on: from the computation of the initial one only
if there is none. -/
inductive Current (l : Ledger) (name : String) (init : ExceptT ε (StateM σ) Datum) :
    ExceptT ε (StateM σ) Datum → Prop
  | absent (h : l.accumulators name = none) : Current l name init init
  | found {a : Accumulator} {d : Datum} (h : l.accumulators name = some a) (hd : a.datum.Identical d) :
      Current l name init (pure d)

/-- The replies that a ledger permits to an operation, with the ledger and the state of the computations
after it. -/
inductive Permits (refuse : Reason → ε) (l : Ledger) (c : σ) :
    Operation σ ε → Reply ε → Ledger → σ → Prop
  | found {name : String} {a : Accumulator} {d : Datum} (h : l.accumulators name = some a)
      (hd : a.datum.Identical d) : Permits refuse l c (.tally name) (.datum d) l c
  | absent {name : String} (h : l.accumulators name = none) :
      Permits refuse l c (.tally name) (.failed (refuse .noSuchTally)) l c
  | set {name : String} {a : Accumulator} (h : refusal? name a = none) :
      Permits refuse l c (.setTally name a) .done (l.write name a) c
  | setRefused {name : String} {a : Accumulator} {r : Reason} (h : refusal? name a = some r) :
      Permits refuse l c (.setTally name a) (.failed (refuse r)) l c
  | updated {name : String} {init current : ExceptT ε (StateM σ) Datum}
      {f : Datum → ExceptT ε (StateM σ) Accumulator} {a : Accumulator} {c' : σ}
      (hcurrent : Current l name init current) (hrun : (current >>= f).run c = (.ok a, c'))
      (h : refusal? name a = none) :
      Permits refuse l c (.update name init f) (.datum a.datum) (l.write name a) c'
  | updateRefused {name : String} {init current : ExceptT ε (StateM σ) Datum}
      {f : Datum → ExceptT ε (StateM σ) Accumulator} {a : Accumulator} {c' : σ} {r : Reason}
      (hcurrent : Current l name init current) (hrun : (current >>= f).run c = (.ok a, c'))
      (h : refusal? name a = some r) :
      Permits refuse l c (.update name init f) (.failed (refuse r)) l c'
  | updateFailed {name : String} {init current : ExceptT ε (StateM σ) Datum}
      {f : Datum → ExceptT ε (StateM σ) Accumulator} {e : ε} {c' : σ}
      (hcurrent : Current l name init current) (hrun : (current >>= f).run c = (.error e, c')) :
      Permits refuse l c (.update name init f) (.failed e) l c'
  | deleted (name : String) : Permits refuse l c (.delTally name) .done (l.erase name) c
  | names {ns : List String} (hsorted : ns.Pairwise (· < ·))
      (h : ∀ name, name ∈ ns ↔ (l.accumulators name).isSome) :
      Permits refuse l c .tallyNames (.names ns) l c
  | added {code : String} {n : Nat} {past : Store} (h : l.past.addHistory code = (n, past)) :
      Permits refuse l c (.addHistory code) (.number n) { l with past } c
  | latest (n : Int) : Permits refuse l c (.latest n) (.entries (l.past.latest n)) l c
  | trimmed {keep : Int} {n : Nat} {past : Store} (h : l.past.trimHistory keep = (n, past)) :
      Permits refuse l c (.trimHistory keep) (.number n) { l with past } c

/-- The replies that a ledger permits to operations one after another. -/
inductive PermitsAll (refuse : Reason → ε) :
    Ledger → σ → List (Operation σ ε) → List (Reply ε) → Ledger → σ → Prop
  | nil (l : Ledger) (c : σ) : PermitsAll refuse l c [] [] l c
  | cons {l l' l'' : Ledger} {c c' c'' : σ} {op : Operation σ ε} {ops : List (Operation σ ε)}
      {reply : Reply ε} {replies : List (Reply ε)} (h : Permits refuse l c op reply l' c')
      (hrest : PermitsAll refuse l' c' ops replies l'' c'') :
      PermitsAll refuse l c (op :: ops) (reply :: replies) l'' c''

def bare (s : Store) : Store := { s with tallies := [] }

structure Represents (s : Store) (l : Ledger) : Prop where
  texts : ∀ name, Option.Rel (fun a text => Codec.marshal a.datum = .ok text) (l.accumulators name)
    (s.tallyText? name)
  distinct : (s.tallies.map Prod.fst).Nodup
  past : l.past = s.bare

theorem represents_empty : Represents .empty .empty := ⟨fun _ => .none, List.nodup_nil, rfl⟩

theorem addHistory_bare (s : Store) (code : String) :
    s.bare.addHistory code = ((s.addHistory code).1, (s.addHistory code).2.bare) := by
  have hlast : s.bare.history.getLast? = s.history.getLast? := rfl
  unfold addHistory
  rw [hlast]
  cases s.history.getLast? with
  | none => rfl
  | some e =>
    dsimp only
    split <;> rfl

theorem tallies_addHistory (s : Store) (code : String) : (s.addHistory code).2.tallies = s.tallies := by
  unfold addHistory
  split
  · split <;> rfl
  · rfl

theorem setTally_eq (s : Store) (name : String) (a : Accumulator) :
    (∃ r, refusal? name a = some r ∧ s.setTally name a.datum = .error r) ∨
      ∃ text, Codec.marshal a.datum = .ok text ∧ refusal? name a = none ∧
        s.setTally name a.datum = .ok (s.withTally name text) := by
  unfold refusal? setTally
  cases Codec.marshal a.datum with
  | error r => exact .inl ⟨r, rfl, rfl⟩
  | ok text =>
    by_cases hname : name = ""
    · exact .inl ⟨.keyRequired, if_pos hname, if_pos hname⟩
    · exact .inr ⟨text, rfl, if_neg hname, if_neg hname⟩

namespace Represents

variable {s : Store} {l : Ledger} (h : Represents s l)
include h

theorem write (name : String) {a : Accumulator} {text : String} (htext : Codec.marshal a.datum = .ok text) :
    Represents (s.withTally name text) (l.write name a) := by
  refine ⟨fun x => ?_, Keyed.nodup_insert_name _ h.distinct, h.past⟩
  rw [tallyText?_withTally, Ledger.accumulators_write]
  by_cases hx : x = name
  · rw [if_pos hx, if_pos (beq_iff_eq.mpr hx.symm)]
    exact .some htext
  · rw [if_neg hx, if_neg fun heq => hx (eq_of_beq heq).symm]
    exact h.texts x

theorem erase (name : String) : Represents (s.delTally name) (l.erase name) := by
  refine ⟨fun x => ?_, Keyed.nodup_erase_name h.distinct, h.past⟩
  have htext : (s.delTally name).tallyText? x = if name == x then none else s.tallyText? x :=
    Keyed.find?_erase_name h.distinct
  rw [htext, Ledger.accumulators_erase]
  by_cases hx : x = name
  · rw [if_pos hx, if_pos (beq_iff_eq.mpr hx.symm)]
    exact .none
  · rw [if_neg hx, if_neg fun heq => hx (eq_of_beq heq).symm]
    exact h.texts x

theorem withPast {s' : Store} (hs : s'.tallies = s.tallies) :
    Represents s' { l with past := s'.bare } := by
  refine ⟨fun name => ?_, hs ▸ h.distinct, rfl⟩
  rw [tallyText?, hs]
  exact h.texts name

theorem tally (name : String) :
    (∃ a d, l.accumulators name = some a ∧ a.datum.Identical d ∧ s.tally name = .ok d) ∨
      l.accumulators name = none ∧ s.tally name = .error .noSuchTally := by
  unfold Store.tally
  have htext := h.texts name
  generalize l.accumulators name = stored at htext ⊢
  generalize s.tallyText? name = text? at htext ⊢
  cases htext with
  | none => exact .inr ⟨rfl, rfl⟩
  | @some a text hmarshal =>
    obtain ⟨j, hj, hopened, rfl⟩ := Codec.encode_of_marshal hmarshal
    obtain ⟨d, hd, hsame⟩ := Codec.unmarshal_text_identical a.sound a.apart hj (a.shallow j hj hopened)
    exact .inl ⟨a, d, rfl, hsame, hd⟩

theorem mem_tallyNames (name : String) : name ∈ s.tallyNames ↔ (l.accumulators name).isSome := by
  have hsome : (s.tallyText? name).isSome = (l.accumulators name).isSome := by
    have htext := h.texts name
    generalize l.accumulators name = stored at htext ⊢
    generalize s.tallyText? name = text? at htext ⊢
    cases htext <;> rfl
  rw [tallyNames, List.mem_mergeSort, ← Keyed.find?_name_isSome, ← hsome]
  rfl

theorem tallyNames_sorted : s.tallyNames.Pairwise (· < ·) := by
  have hle : s.tallyNames.Pairwise (· ≤ ·) := List.pairwise_mergeSort' _ _
  have hne : s.tallyNames.Pairwise (· ≠ ·) := (List.mergeSort_perm _ _).nodup_iff.mpr h.distinct
  exact (hle.and hne).imp fun hxy => lt_of_le_of_ne hxy.1 hxy.2

end Represents

section

variable {refuse : Reason → ε} {s : Store} {l : Ledger} (h : Represents s l) (c : σ)
include h

omit h in
theorem run_store (name : String) (f : Datum → ExceptT ε (StateM σ) Accumulator) (d : Datum) (c : σ) :
    ExceptT.run (do
      let new ← change f d
      match s.setTally name (← (dataWorkshop (σ := σ) refuse).save new) with
      | .ok s => return (new, s)
      | .error r => (dataWorkshop refuse).refuse r) c =
    match (f d).run c with
    | (.ok a, c) => (match s.setTally name a.datum with
        | .ok s => .ok (a.datum, s)
        | .error r => .error (refuse r), c)
    | (.error e, c) => (.error e, c) := by
  rw [run_bind, change, run_bind]
  rcases (f d).run c with ⟨e | a, c⟩
  · rfl
  · dsimp only
    have hsave : ((dataWorkshop refuse).save a.datum).run c = (.ok a.datum, c) := rfl
    rw [run_pure]
    dsimp only
    rw [run_bind, hsave]
    dsimp only
    cases s.setTally name a.datum <;> rfl

theorem run_update (name : String) (init : ExceptT ε (StateM σ) Datum)
    (f : Datum → ExceptT ε (StateM σ) Accumulator) :
    ∃ current, Current l name init current ∧
      (s.update (dataWorkshop refuse) name init (change f)).run c =
        match (current >>= f).run c with
        | (.ok a, c) => (match s.setTally name a.datum with
            | .ok s => .ok (a.datum, s)
            | .error r => .error (refuse r), c)
        | (.error e, c) => (.error e, c) := by
  unfold update Store.current
  obtain ⟨a, d, ha, hsame, hd⟩ | ⟨hnone, hd⟩ := h.tally name
  · refine ⟨pure d, .found ha hsame, ?_⟩
    rw [hd]
    exact run_store name f d c
  · refine ⟨init, .absent hnone, ?_⟩
    rw [hd]
    dsimp only
    rw [run_bind, run_bind]
    rcases init.run c with ⟨e | d, c⟩
    · rfl
    · exact run_store name f d c

theorem permits_perform (op : Operation σ ε) :
    ∃ l', Permits refuse l c op (s.perform refuse c op).1 l' (s.perform refuse c op).2.2 ∧
      Represents (s.perform refuse c op).2.1 l' := by
  cases op with
  | tally name =>
    simp only [perform]
    refine ⟨l, ?_⟩
    obtain ⟨a, d, ha, hsame, hd⟩ | ⟨hnone, hd⟩ := h.tally name
    · rw [hd]
      exact ⟨.found ha hsame, h⟩
    · rw [hd]
      exact ⟨.absent hnone, h⟩
  | setTally name a =>
    simp only [perform]
    obtain ⟨r, hr, hset⟩ | ⟨text, htext, hr, hset⟩ := s.setTally_eq name a
    · rw [hset]
      exact ⟨l, .setRefused hr, h⟩
    · rw [hset]
      exact ⟨_, .set hr, h.write name htext⟩
  | update name init f =>
    obtain ⟨current, hcurrent, hupdate⟩ := run_update h c name init f
    simp only [perform]
    rw [hupdate]
    rcases hrun : (current >>= f).run c with ⟨e | a, c'⟩
    · exact ⟨l, .updateFailed hcurrent hrun, h⟩
    · obtain ⟨r, hr, hset⟩ | ⟨text, htext, hr, hset⟩ := s.setTally_eq name a
      · dsimp only
        rw [hset]
        exact ⟨l, .updateRefused hcurrent hrun hr, h⟩
      · dsimp only
        rw [hset]
        exact ⟨_, .updated hcurrent hrun hr, h.write name htext⟩
  | delTally name => exact ⟨_, .deleted name, h.erase name⟩
  | tallyNames => exact ⟨l, .names h.tallyNames_sorted h.mem_tallyNames, h⟩
  | addHistory code =>
    refine ⟨_, .added ?_, h.withPast (tallies_addHistory s code)⟩
    rw [h.past]
    exact addHistory_bare s code
  | latest n =>
    have hlatest : s.latest n = l.past.latest n := by
      rw [h.past]
      rfl
    simp only [perform]
    rw [hlatest]
    exact ⟨l, .latest n, h⟩
  | trimHistory keep =>
    refine ⟨_, .trimmed ?_, h.withPast rfl⟩
    rw [h.past]
    rfl

end

/-- **Stores are maps of accumulators.** Whatever is done to a store that was empty is answered as a
ledger permits, and the store then represents that ledger. -/
theorem permits_performAll (refuse : Reason → ε) (c : σ) (ops : List (Operation σ ε)) :
    ∃ l, PermitsAll refuse .empty c ops (Store.empty.performAll refuse c ops).1 l
        (Store.empty.performAll refuse c ops).2.2 ∧
      Represents (Store.empty.performAll refuse c ops).2.1 l := by
  have hrun : ∀ (ops : List (Operation σ ε)) (s : Store) (l : Ledger) (c : σ), Represents s l →
      ∃ l', PermitsAll refuse l c ops (s.performAll refuse c ops).1 l' (s.performAll refuse c ops).2.2 ∧
        Represents (s.performAll refuse c ops).2.1 l' := by
    intro ops
    induction ops with
    | nil => exact fun s l c h => ⟨l, .nil l c, h⟩
    | cons op ops ih =>
      intro s l c h
      obtain ⟨l', hop, h'⟩ : ∃ l', Permits refuse l c op (s.perform refuse c op).1 l'
          (s.perform refuse c op).2.2 ∧ Represents (s.perform refuse c op).2.1 l' :=
        permits_perform h c op
      obtain ⟨l'', hops, h''⟩ := ih _ l' _ h'
      exact ⟨l'', .cons hop hops, h''⟩
  exact hrun ops .empty .empty c represents_empty

def one : Accumulator where
  datum := .int 1
  sound := .atom _
  apart := .atom _
  shallow := by
    rintro j ⟨⟩ -
    exact Nat.zero_le _

/-- An accumulator is written, changed by an update that fails for another name, read and deleted. -/
def sampleOperations : List (Operation Nat Reason) :=
  [.setTally "a" one, .update "b" (throw .raised) (fun _ => return one), .tally "a", .delTally "a",
    .tally "a"]

/-- What an answer says, if it says anything. -/
def Reply.text : Reply Reason → String
  | .datum d => d.plain
  | .failed r => r.message
  | _ => ""

theorem permits_performAll_sample :
    let done := Store.empty.performAll id 0 sampleOperations
    done.1.map Reply.text = ["", "raised", "1", "", "no such tally"] ∧
      ∃ l, PermitsAll id .empty 0 sampleOperations done.1 l done.2.2 ∧ Represents done.2.1 l :=
  ⟨by decide +kernel, permits_performAll id 0 sampleOperations⟩

/-- At the limit of nesting a value is stored, and then the accumulator cannot be read. -/
theorem deep_accumulator_unreadable : ∃ s : Store,
    Store.empty.setTally "deep" (Codec.nest Json.maxDepth) = .ok s ∧
      s.tally "deep" = .error .malformedJson := by
  refine ⟨_, setTally_eq_ok_iff.mpr ⟨by decide, _, Codec.marshal_nest_maxDepth, rfl⟩, ?_⟩
  rw [Store.tally, tallyText?_withTally]
  exact Codec.unmarshal_nest_maxDepth

end Store

end EventTally
