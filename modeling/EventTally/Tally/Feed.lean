import EventTally.Log
import EventTally.Store.Update
import EventTally.Tally.Handle
import EventTally.Text.Blank
import EventTally.Text.Bytes

/-! # Feeds

A feed is a text with one event on each line that is not blank. Each event goes to every tally in
turn, and what a tally makes of it is stored. A tally whose rule fails skips the event; a line that
is no event, a failure of the store or a crash ends the feed. What was stored before stays.
-/

namespace EventTally

/-- The tallies at work: each with its scope once that has been made, and the world. -/
structure Runner where
  tallies : List (Tally × Option ScopeRef)
  world : World

inductive FeedFault where
  /-- A line is no event. -/
  | event (line : Nat) (f : EventFault)
  | refused (r : Reason)
  | lineTooLong
  | cancelled
  | crashed
  deriving Inhabited

namespace FeedFault

def message : FeedFault → String
  | .event line f => "line " ++ toString line ++ ": " ++ f.message
  | .refused r => r.message
  | .lineTooLong => "bufio.Scanner: token too long"
  | .cancelled => "context canceled"
  | .crashed => "panic"

end FeedFault

structure FeedReport where
  /-- The number of events that went to all tallies. -/
  events : Nat
  /-- How many times a tally skipped an event. -/
  skipped : Nat
  log : List LogEntry
  fault : Option FeedFault
  deriving Inhabited

namespace Tally

def workshop : Store.Workshop RunM Value where
  load d := allocate (·.thaw d)
  save v := do return (← heap).datum v
  refuse r := throw (.store r)

def dataOf (t : Tally) (h : Heap) (v : Value) : Except Fault Datum :=
  match h.encode? v with
  | some (.ok _) => .ok (h.datum v)
  | some (.error r) => .error (.field t.name .handleChange (.result r))
  | none => .error .crashed

def handleData (t : Tally) (ev : Event) (acc : Value) : RunM Value := do
  let v ← t.handle acc ev
  match t.dataOf (← heap) v with
  | .ok _ => return v
  | .error f => throw f

def apply (t : Tally) (ev : Event) : RunM Unit := do
  let (_, store) ←
    (← get).world.store.update workshop t.name t.initial (t.handleData ev)
  modify fun b => { b with world := { b.world with store } }

/-- The stored accumulator, or the initial one if none is stored. -/
def accumulator (t : Tally) : RunM Value := do
  match (← get).world.store.tally t.name with
  | .ok d => allocate (·.thaw d)
  | .error .noSuchTally => t.initial
  | .error r => throw (.store r)

end Tally

namespace Runner

/-- A new scope with the builtins and access to the stored accumulators. -/
def hostScope (w : World) : ScopeRef × World :=
  let (s, heap) := w.heap.child Heap.builtinScope
  (s, { w with heap := heap.bind s "get_tally" (.builtin .getTally) })

/-- The tallies of rules with a common host scope. -/
def start (rules : List Rule) (w : World) : Except Tally.CompileFault Runner :=
  let (host, world) := hostScope w
  (Tally.compileAll rules host).map fun ts => { tallies := ts.map (·, none), world }

/-- What became of an event at some tallies: their state, the notes on those that skipped it, and
what ended the feed. -/
structure Round where
  tallies : List (Tally × Option ScopeRef)
  world : World
  notes : List String
  stop : Option FeedFault

def applyAll (ev : Event) : List (Tally × Option ScopeRef) → World → Round
  | [], world => { tallies := [], world, notes := [], stop := none }
  | (t, scope) :: rest, world =>
    let (result, b) := (t.apply ev).run { scope, world }
    let goOn := fun notes =>
      let later := applyAll ev rest b.world
      { later with tallies := (t, b.scope) :: later.tallies, notes := notes ++ later.notes }
    let endWith := fun fault =>
      { tallies := (t, b.scope) :: rest, world := b.world, notes := [], stop := some fault }
    match result with
    | .ok _ => goOn []
    | .error (.field rule f cause) => goOn [(Tally.Fault.field rule f cause).message]
    | .error (.record r) | .error (.store r) => endWith (.refused r)
    | .error .crashed => endWith .crashed

/-- The longest line that is read, in bytes. -/
def maxLine : Nat := 1048575

def chopReturn (line : List Char) : List Char :=
  match line.reverse with
  | '\r' :: rest => rest.reverse
  | _ => line

/-- The event of a line, none if the line is blank. A feed that is cancelled stops at a line that
is not blank. -/
def readLine (cancelled : Bool) (number : Nat) (line : List Char) :
    Except FeedFault (Option Event) :=
  if maxLine < Text.byteLength line then .error .lineTooLong
  else
    let text := Text.trimChars (chopReturn line)
    if text.isEmpty then .ok none
    else if cancelled then .error .cancelled
    else
      match Event.parse text with
      | .error f => .error (.event number f)
      | .ok ev => .ok (some ev)

/-- Feeds lines, numbered from `number`; `cancelled` tells whether the feed has been cancelled when
a line is reached. -/
def feedLines (cancelled : Nat → Bool) : Nat → List (List Char) → Runner → FeedReport × Runner
  | _, [], r => ({ events := 0, skipped := 0, log := [], fault := none }, r)
  | number, line :: rest, r =>
    match readLine (cancelled number) number line with
    | .error fault => ({ events := 0, skipped := 0, log := [], fault := some fault }, r)
    | .ok none => feedLines cancelled (number + 1) rest r
    | .ok (some ev) =>
      let round := applyAll ev r.tallies r.world
      let log := round.notes.map fun note =>
        { topic := "tally", message := "line " ++ toString number ++ ": skipped: " ++ note }
      let r := { tallies := round.tallies, world := round.world }
      match round.stop with
      | some fault => ({ events := 0, skipped := log.length, log, fault := some fault }, r)
      | none =>
        let (report, r) := feedLines cancelled (number + 1) rest r
        ({ report with
            events := report.events + 1
            skipped := report.skipped + log.length
            log := log ++ report.log }, r)

/-- Feeds a text that is cancelled at some line, if ever. -/
def feedUntil (cancelled : Nat → Bool) (text : List Char) (r : Runner) : FeedReport × Runner :=
  feedLines cancelled 1 (Text.splitLines text) r

/-- Feeds a text, or notices at its first event that the feed has been cancelled. -/
def feed (cancelled : Bool) (text : List Char) (r : Runner) : FeedReport × Runner :=
  r.feedUntil (fun _ => cancelled) text

/-- The accumulators of all tallies in turn, each a value or a fault. -/
def accumulators (r : Runner) : List (Except Tally.Fault Value) × Runner :=
  let (results, tallies, world) := readAll r.tallies r.world
  (results, { tallies, world })
where
  /-- Goes through the tallies with the world as it is then. -/
  readAll : List (Tally × Option ScopeRef) → World →
      List (Except Tally.Fault Value) × List (Tally × Option ScopeRef) × World
    | [], world => ([], [], world)
    | (t, scope) :: rest, world =>
      let (result, b) := t.accumulator.run { scope, world }
      let (results, tallies, world) := readAll rest b.world
      (result :: results, (t, b.scope) :: tallies, world)

end Runner

end EventTally
