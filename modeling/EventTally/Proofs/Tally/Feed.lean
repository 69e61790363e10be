import EventTally.Proofs.Tally.Settle

/-! # A feed is a fold

The events of a feed are those of its lines up to the first line that is no event (`agenda`). A round
settles an event at one tally after another. A feed leaves the store that the rounds of its events
leave (`feedUntil_eq_rounds`). It ends early at a line that is no event or at an event with a record
that cannot be decoded, and neither leaves a trace in the store. Only a crash, or an accumulator that is
nested too deep, breaks an event off between two tallies.
-/

namespace EventTally

namespace Runner

open Tally (Bench Outcome)

/-- The events of lines, and why reading them ended before the last line. -/
def agenda (cancelled : Nat → Bool) : Nat → List (List Char) → List Event × Option FeedFault
  | _, [] => ([], none)
  | number, line :: rest =>
    match readLine (cancelled number) number line with
    | .error fault => ([], some fault)
    | .ok none => agenda cancelled (number + 1) rest
    | .ok (some ev) =>
      let later := agenda cancelled (number + 1) rest
      (ev :: later.1, later.2)

def settleAll (ev : Event) : List (Tally × Option ScopeRef) → World →
    List Outcome × List (Tally × Option ScopeRef) × World
  | [], world => ([], [], world)
  | (t, scope) :: rest, world =>
    let (outcome, b) := t.settle ev { scope, world }
    let (outcomes, tallies, world) := settleAll ev rest b.world
    (outcome :: outcomes, (t, b.scope) :: tallies, world)

def round (r : Runner) (ev : Event) : List Outcome × Runner :=
  let settled := settleAll ev r.tallies r.world
  (settled.1, { tallies := settled.2.1, world := settled.2.2 })

def rounds (r : Runner) : List Event → List Outcome × Runner
  | [] => ([], r)
  | ev :: evs =>
    let (outcomes, r) := r.round ev
    let (later, r) := r.rounds evs
    (outcomes ++ later, r)

def skips (outcomes : List Outcome) : Nat :=
  outcomes.countP fun
    | .skipped => true
    | _ => false

theorem skips_append (outcomes later : List Outcome) :
    skips (outcomes ++ later) = skips outcomes + skips later :=
  List.countP_append

theorem skips_cons (outcome : Outcome) (outcomes : List Outcome) :
    skips (outcome :: outcomes) = skips [outcome] + skips outcomes :=
  skips_append [outcome] outcomes

def stopOf? : Outcome → Option FeedFault
  | .stored | .skipped => none
  | .refused r => some (.refused r)
  | .crashed => some .crashed

theorem applyAll_cons (ev : Event) (t : Tally) (scope : Option ScopeRef)
    (rest : List (Tally × Option ScopeRef)) (w : World) {result : Except Tally.Fault Unit}
    {b : Bench} (hrun : (t.apply ev).run { scope, world := w } = (result, b)) :
    (∃ notes, notes.length = skips [Outcome.ofResult result] ∧ stopOf? (.ofResult result) = none ∧
      applyAll ev ((t, scope) :: rest) w =
        { applyAll ev rest b.world with
          tallies := (t, b.scope) :: (applyAll ev rest b.world).tallies
          notes := notes ++ (applyAll ev rest b.world).notes }) ∨
    ∃ fault, stopOf? (.ofResult result) = some fault ∧ applyAll ev ((t, scope) :: rest) w =
      { tallies := (t, b.scope) :: rest, world := b.world, notes := [], stop := some fault } := by
  rw [applyAll, hrun]
  rcases result with (⟨rule, f, cause⟩ | r | r | _) | a
  · exact .inl ⟨[(Tally.Fault.field rule f cause).message], rfl, rfl, rfl⟩
  · exact .inr ⟨.refused r, rfl, rfl⟩
  · exact .inr ⟨.refused r, rfl, rfl⟩
  · exact .inr ⟨.crashed, rfl, rfl⟩
  · exact .inl ⟨[], rfl, rfl, rfl⟩

theorem applyAll_tallies (ev : Event) (ts : List (Tally × Option ScopeRef)) (w : World) :
    (applyAll ev ts w).tallies.map Prod.fst = ts.map Prod.fst := by
  induction ts generalizing w with
  | nil => rfl
  | cons p rest ih =>
    obtain ⟨t, scope⟩ := p
    rcases hrun : (t.apply ev).run { scope, world := w } with ⟨result, b⟩
    obtain ⟨notes, -, -, heq⟩ | ⟨fault, -, heq⟩ := applyAll_cons ev t scope rest w hrun
    · rw [heq]
      exact congrArg (t :: ·) (ih b.world)
    · rw [heq]
      rfl

theorem applyAll_names {ev : Event} {ts : List (Tally × Option ScopeRef)} {w : World}
    (hnames : ∀ p ∈ ts, p.1.name ≠ "") : ∀ p ∈ (applyAll ev ts w).tallies, p.1.name ≠ "" := by
  intro p hp
  have hmem : p.1 ∈ ts.map Prod.fst := by
    rw [← applyAll_tallies ev ts w]
    exact List.mem_map_of_mem hp
  obtain ⟨q, hq, hqp⟩ := List.mem_map.mp hmem
  rw [← hqp]
  exact hnames q hq

theorem fit_applyAll (ev : Event) {ts : List (Tally × Option ScopeRef)}
    (hnames : ∀ p ∈ ts, p.1.name ≠ "") {w : World} (hw : w.Fit) : (applyAll ev ts w).world.Fit := by
  induction ts generalizing w with
  | nil => exact hw
  | cons p rest ih =>
    obtain ⟨t, scope⟩ := p
    obtain ⟨hname, hrest⟩ := List.forall_mem_cons.mp hnames
    have hfit := (t.apply_spec hname ev (b := { scope, world := w }) hw).1
    rcases hrun : (t.apply ev).run { scope, world := w } with ⟨result, b⟩
    rw [hrun] at hfit
    obtain ⟨notes, -, -, heq⟩ | ⟨fault, -, heq⟩ := applyAll_cons ev t scope rest w hrun
    · rw [heq]
      exact ih hrest hfit
    · rw [heq]
      exact hfit

theorem settleAll_cons (ev : Event) {t : Tally} (hname : t.name ≠ "") (scope : Option ScopeRef)
    (rest : List (Tally × Option ScopeRef)) {w : World} (hw : w.Fit)
    {result : Except Tally.Fault Unit} {b : Bench}
    (hrun : (t.apply ev).run { scope, world := w } = (result, b)) :
    settleAll ev ((t, scope) :: rest) w =
      (.ofResult result :: (settleAll ev rest b.world).1,
        (t, b.scope) :: (settleAll ev rest b.world).2.1, (settleAll ev rest b.world).2.2) := by
  have hsettle := t.settle_eq hname ev (b := { scope, world := w }) hw.sound
  rw [hrun] at hsettle
  rw [settleAll, hsettle]

/-- What breaks an event off at a tally: a crash, or an accumulator that is nested too deep to be
written, or to be read. -/
inductive Breaks (s : Store) : Outcome → FeedFault → Prop
  | crashed : Breaks s .crashed .crashed
  | unwritable : Breaks s (.refused .tooDeep) (.refused .tooDeep)
  | unreadable (r : Reason) (h : ¬ s.Shallow) : Breaks s (.refused r) (.refused r)

theorem stop_spec {ev : Event} {s : Store} (hs : s.Written) {f : Tally.Fault} (hf : f.Excused s ev)
    {fault : FeedFault} (h : stopOf? (.ofResult (.error f)) = some fault) :
    (∃ r, Outcome.ofResult (.error f) = .refused r ∧ fault = .refused r ∧ ev.Undecodable r) ∨
      Breaks s (.ofResult (.error f)) fault := by
  cases f with
  | field rule f cause => cases h
  | record r =>
    cases h
    obtain hundec | ⟨⟨⟩⟩ := hf
    exact .inl ⟨r, rfl, rfl, hundec⟩
  | store r =>
    cases h
    obtain ⟨name, hr, hne⟩ | ⟨⟨⟩⟩ := hf
    · exact .inr (.unreadable r (hs.not_shallow hr hne))
    · exact .inr .unwritable
  | crashed =>
    cases h
    exact .inr .crashed

/-- What comes of an event at tallies: all are tried, or it has a record that cannot be decoded and the
tallies before skip it, or it breaks off between two tallies. -/
inductive Applied (ev : Event) (ts : List (Tally × Option ScopeRef)) (w : World) : Prop
  | through (hstop : (applyAll ev ts w).stop = none)
      (hsame : (settleAll ev ts w).2 = ((applyAll ev ts w).tallies, (applyAll ev ts w).world))
      (hskips : skips (settleAll ev ts w).1 = (applyAll ev ts w).notes.length)
  | undecodable (r : Reason) (later : List Outcome)
      (hstop : (applyAll ev ts w).stop = some (.refused r)) (hundec : ev.Undecodable r)
      (houtcomes : (settleAll ev ts w).1 =
        List.replicate (applyAll ev ts w).notes.length .skipped ++ .refused r :: later)
      (hstore : (applyAll ev ts w).world.store = w.store)
  | broken (before : List Outcome) (last : Outcome) (later : List Outcome) (fault : FeedFault)
      (hstop : (applyAll ev ts w).stop = some fault)
      (hbreaks : Breaks (applyAll ev ts w).world.store last fault)
      (houtcomes : (settleAll ev ts w).1 = before ++ last :: later)
      (hbefore : ∀ o ∈ before, stopOf? o = none)
      (hskips : (applyAll ev ts w).notes.length = skips before)
      (hstore : (applyAll ev ts w).world.store = (settleAll ev (ts.take before.length) w).2.2.store)

section

variable {ev : Event} {t : Tally} {scope : Option ScopeRef} {w : World}
  {result : Except Tally.Fault Unit} {b : Bench}
  (hsettle : ∀ rest, settleAll ev ((t, scope) :: rest) w =
    (.ofResult result :: (settleAll ev rest b.world).1,
      (t, b.scope) :: (settleAll ev rest b.world).2.1, (settleAll ev rest b.world).2.2))
include hsettle

theorem Applied.cons {rest : List (Tally × Option ScopeRef)} {notes : List String}
    (hnotes : notes.length = skips [.ofResult result]) (hgo : stopOf? (.ofResult result) = none)
    (heq : applyAll ev ((t, scope) :: rest) w =
      { applyAll ev rest b.world with
        tallies := (t, b.scope) :: (applyAll ev rest b.world).tallies
        notes := notes ++ (applyAll ev rest b.world).notes })
    (hskipped : ∀ r, ev.Undecodable r →
      Outcome.ofResult result = .skipped ∧ b.world.store = w.store)
    (h : Applied ev rest b.world) : Applied ev ((t, scope) :: rest) w := by
  cases h with
  | through hstop hsame hskips =>
    refine .through (by rw [heq, hstop]) (by rw [hsettle, heq, hsame]) ?_
    rw [hsettle, heq, skips_cons, hskips, List.length_append, hnotes]
  | undecodable r later hstop hundec houtcomes hstore =>
    obtain ⟨houtcome, hsame⟩ := hskipped r hundec
    have hone : notes.length = 1 := by
      rw [hnotes, houtcome]
      rfl
    refine .undecodable r later (by rw [heq, hstop]) hundec ?_ (by rw [heq, hstore, hsame])
    rw [hsettle, heq, houtcomes, houtcome, List.length_append, hone, Nat.add_comm, List.replicate_succ]
    rfl
  | broken before last later fault hstop hbreaks houtcomes hbefore hskips hstore =>
    refine .broken (.ofResult result :: before) last later fault (by rw [heq, hstop]) ?_ ?_
      (List.forall_mem_cons.mpr ⟨hgo, hbefore⟩) ?_ ?_
    · rw [heq]
      exact hbreaks
    · rw [hsettle, houtcomes]
      rfl
    · rw [heq, skips_cons, List.length_append, hnotes, hskips]
    · rw [heq, List.length_cons, List.take_succ_cons, hsettle]
      exact hstore

theorem Applied.ended {rest : List (Tally × Option ScopeRef)} {fault : FeedFault}
    (heq : applyAll ev ((t, scope) :: rest) w =
      { tallies := (t, b.scope) :: rest, world := b.world, notes := [], stop := some fault })
    (hstore : b.world.store = w.store)
    (hends : (∃ r, Outcome.ofResult result = .refused r ∧ fault = .refused r ∧ ev.Undecodable r) ∨
      Breaks b.world.store (.ofResult result) fault) : Applied ev ((t, scope) :: rest) w := by
  obtain ⟨r, hr, rfl, hundec⟩ | hbreaks := hends
  · refine .undecodable r (settleAll ev rest b.world).1 (by rw [heq]) hundec ?_ (by rw [heq, hstore])
    rw [hsettle, heq, hr]
    rfl
  · refine .broken [] _ (settleAll ev rest b.world).1 fault (by rw [heq]) ?_ (by rw [hsettle]; rfl)
      nofun (by rw [heq]; rfl) ?_
    · rw [heq]
      exact hbreaks
    · rw [heq]
      exact hstore

end

theorem applied (ev : Event) {ts : List (Tally × Option ScopeRef)}
    (hnames : ∀ p ∈ ts, p.1.name ≠ "") {w : World} (hw : w.Fit) : Applied ev ts w := by
  induction ts generalizing w with
  | nil => exact .through rfl rfl rfl
  | cons p rest ih =>
    obtain ⟨t, scope⟩ := p
    obtain ⟨hname, hrest⟩ := List.forall_mem_cons.mp hnames
    obtain ⟨hfit, hwithin⟩ := t.apply_spec hname ev (b := { scope, world := w }) hw
    rcases hrun : (t.apply ev).run { scope, world := w } with ⟨result, b⟩
    rw [hrun] at hfit hwithin
    have hsettle (rest : List (Tally × Option ScopeRef)) := settleAll_cons ev hname scope rest hw hrun
    obtain ⟨notes, hnotes, hgo, heq⟩ | ⟨fault, hstop, heq⟩ := applyAll_cons ev t scope rest w hrun
    · refine .cons hsettle hnotes hgo heq (fun r hundec => ?_) (ih hrest hfit)
      -- An event that cannot be decoded was not stored before either.
      cases result with
      | ok a => exact absurd hwithin hundec.not_decodable
      | error f =>
        refine ⟨?_, hwithin.2⟩
        cases f with
        | field rule f cause => rfl
        | _ => cases hgo
    · cases result with
      | ok a => cases hstop
      | error f =>
        have hstore : b.world.store = w.store := hwithin.2
        refine .ended hsettle heq hstore ?_
        rw [hstore]
        exact stop_spec hw.written hwithin.1 hstop

/-- How a feed with a given agenda ends, and what store it leaves. -/
inductive Fed (r : Runner) (plan : List Event × Option FeedFault) (report : FeedReport)
    (after : Runner) : Prop
  /-- All events went to all tallies. -/
  | through (hevents : report.events = plan.1.length) (hfault : report.fault = plan.2)
      (hskipped : report.skipped = skips (r.rounds plan.1).1)
      (hstore : after.world.store = (r.rounds plan.1).2.world.store)
  /-- An event was refused for a record that cannot be decoded, after tallies that all skipped it. -/
  | undecodable {ev : Event} {reason : Reason} {tried : Nat} {later : List Outcome}
      (hev : plan.1[report.events]? = some ev) (hundec : ev.Undecodable reason)
      (hfault : report.fault = some (.refused reason))
      (hround : ((r.rounds (plan.1.take report.events)).2.round ev).1 =
        List.replicate tried .skipped ++ .refused reason :: later)
      (hskipped : report.skipped = skips (r.rounds (plan.1.take report.events)).1 + tried)
      (hstore : after.world.store = (r.rounds (plan.1.take report.events)).2.world.store)
  /-- An event broke off, and what the tallies before made of it stays. -/
  | broken {ev : Event} {before later : List Outcome} {last : Outcome} {fault : FeedFault}
      (hev : plan.1[report.events]? = some ev) (hbreaks : Breaks after.world.store last fault)
      (hfault : report.fault = some fault)
      (hround : ((r.rounds (plan.1.take report.events)).2.round ev).1 = before ++ last :: later)
      (hbefore : ∀ o ∈ before, stopOf? o = none)
      (hskipped : report.skipped = skips (r.rounds (plan.1.take report.events)).1 + skips before)
      (hstore : after.world.store =
        (settleAll ev ((r.rounds (plan.1.take report.events)).2.tallies.take before.length)
          (r.rounds (plan.1.take report.events)).2.world).2.2.store)

theorem rounds_cons {r r' : Runner} {ev : Event} {outcomes : List Outcome}
    (h : r.round ev = (outcomes, r')) (evs : List Event) :
    r.rounds (ev :: evs) = (outcomes ++ (r'.rounds evs).1, (r'.rounds evs).2) := by
  rw [rounds, h]

theorem Fed.cons {r r' : Runner} {ev : Event} {outcomes : List Outcome} {notes : Nat}
    (hround : r.round ev = (outcomes, r')) (hnotes : skips outcomes = notes)
    {plan : List Event × Option FeedFault} {report : FeedReport} {after : Runner}
    (h : Fed r' plan report after) (log : List LogEntry) :
    Fed r (ev :: plan.1, plan.2)
      { report with events := report.events + 1, skipped := report.skipped + notes, log } after := by
  have hrounds := rounds_cons hround (plan.1.take report.events)
  cases h with
  | through hevents hfault hskipped hstore =>
    refine .through (congrArg (· + 1) hevents) hfault ?_ ?_
    · rw [rounds_cons hround, skips_append, hnotes, ← hskipped]
      exact Nat.add_comm _ _
    · rw [rounds_cons hround]
      exact hstore
  | undecodable hev hundec hfault hlast hskipped hstore =>
    rw [← List.take_succ_cons] at hrounds
    refine .undecodable hev hundec hfault (by rw [hrounds]; exact hlast) ?_ (by rw [hrounds]; exact hstore)
    rw [hrounds, skips_append, hnotes, hskipped]
    dsimp only
    omega
  | broken hev hbreaks hfault hlast hbefore hskipped hstore =>
    rw [← List.take_succ_cons] at hrounds
    refine .broken hev hbreaks hfault (by rw [hrounds]; exact hlast) hbefore ?_
      (by rw [hrounds]; exact hstore)
    rw [hrounds, skips_append, hnotes, hskipped]
    dsimp only
    omega

theorem fed_feedLines (cancelled : Nat → Bool) (number : Nat) (lines : List (List Char))
    {r : Runner} (hnames : ∀ p ∈ r.tallies, p.1.name ≠ "") (hw : r.world.Fit) :
    Fed r (agenda cancelled number lines) (feedLines cancelled number lines r).1
      (feedLines cancelled number lines r).2 := by
  induction lines generalizing number r with
  | nil => exact .through rfl rfl rfl rfl
  | cons line rest ih =>
    rw [feedLines, agenda]
    rcases hline : readLine (cancelled number) number line with fault | _ | ev
    · exact .through rfl rfl rfl rfl
    · exact ih (number + 1) hnames hw
    · dsimp only
      cases applied ev hnames hw with
      | through hstop hsame hskips =>
        rw [hstop]
        have hsettled : r.round ev = ((settleAll ev r.tallies r.world).1,
            { tallies := (applyAll ev r.tallies r.world).tallies
              world := (applyAll ev r.tallies r.world).world }) := by
          unfold round
          dsimp only
          rw [hsame]
        refine Fed.cons hsettled ?_
          (ih (number + 1) (applyAll_names hnames) (fit_applyAll ev hnames hw)) _
        rw [List.length_map]
        exact hskips
      | undecodable reason later hstop hundec houtcomes hstore =>
        rw [hstop]
        refine .undecodable rfl hundec rfl houtcomes ?_ hstore
        rw [List.length_map]
        exact (Nat.zero_add _).symm
      | broken before last later fault hstop hbreaks houtcomes hbefore hskips hstore =>
        rw [hstop]
        refine .broken rfl hbreaks rfl houtcomes hbefore ?_ hstore
        rw [List.length_map, hskips]
        exact (Nat.zero_add _).symm

/-- A feed leaves the store of the rounds of its events, one after another and at one tally after
another, and stops without leaving a trace of the line that it stops at, unless it breaks off there. -/
theorem feedUntil_eq_rounds (cancelled : Nat → Bool) (text : List Char) (r : Runner)
    (hnames : ∀ p ∈ r.tallies, p.1.name ≠ "") (hstore : r.world.store.Written)
    (hheap : r.world.heap.Sound) :
    Fed r (agenda cancelled 1 (Text.splitLines text)) (r.feedUntil cancelled text).1
      (r.feedUntil cancelled text).2 :=
  fed_feedLines cancelled 1 (Text.splitLines text) hnames ⟨hstore, hheap⟩

/-- A tally that adds up the field `n` of new records from an initial accumulator. -/
def sampleTally (name : String) (initial : Code) : Tally where
  name := name
  grouped := false
  host := ⟨1⟩
  code := fun
    | .getTally => initial
    | .getValue => .form [.sym "get", .sym "instance", .form [.sym "quote", .sym "n"]]
    | .filterValue => .value (.bool true)
    | .handleChange => .form [.sym "+", .sym "tally", .sym "new_value"]
    | .base | .getGroup => .value .null

/-- Two tallies, of which the first never has an accumulator. -/
def sample : Runner where
  tallies := [(sampleTally "lost" (.sym "nowhere"), none), (sampleTally "sum" (.value (.int 1)), none)]
  world := (hostScope .initial).2

/-- An event, a blank line, and an event with a number that is no double. -/
def sampleText : List Char :=
  "\x7b\"model\":\"m\",\"new\":\x7b\"n\":2\x7d\x7d\n\n\x7b\"model\":\"m\",\"new\":\x7b\"n\":1e999\x7d\x7d\n".toList

theorem feedUntil_eq_rounds_sample :
    let fed := sample.feedUntil (fun _ => false) sampleText
    (fed.1.events = 1 ∧ fed.1.skipped = 2 ∧ fed.2.world.store.tallies = [("sum", "3")]) ∧
      Fed sample (agenda (fun _ => false) 1 (Text.splitLines sampleText)) fed.1 fed.2 := by
  intro fed
  have hsum : fed.2.world.store.tallies = [("sum", "3")] := by decide +kernel
  refine ⟨⟨by decide +kernel, by decide +kernel, hsum⟩, feedUntil_eq_rounds _ _ _ ?_ ?_ ?_⟩
  · decide
  · intro e he
    cases he
  · exact Heap.sound_initial.of_eq rfl rfl

end Runner

end EventTally
