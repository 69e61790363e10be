import EventTally.Machine.Database
import EventTally.Shell.Print
import EventTally.Shell.ReadCode
import EventTally.Tally.Feed

/-! # Sessions

A session evaluates pieces of code in one scope, with access to the database if that can be opened,
and keeps a history of them in it.
-/

namespace EventTally.Shell

/-- The scope of a session and the database, if there is one. -/
structure Session where
  world : World
  scope : ScopeRef
  database : Option String

/-- Opens the database and makes the scope. Without a database there is a warning, and stored
accumulators are not visible. -/
def openSession (db : String) : MachineM Session := do
  match ← Database.openAt db with
  | .ok (path, store) =>
    let (scope, world) := Runner.hostScope { World.initial with store }
    return { world, scope, database := some path }
  | .error f =>
    MachineM.writeErr ("Warning: cannot open database: " ++ f.message
      ++ "\nget_tally will not be available.\n")
    let (scope, heap) := Heap.initial.child Heap.builtinScope
    return { world := { World.initial with heap }, scope, database := none }

def Session.close (s : Session) : MachineM Unit :=
  match s.database with
  | some path => Database.save path s.world.store
  | none => pure ()

def resultDatum (h : Heap) : Except SourceFault Value → Except SourceFault Datum
  | .ok v => (h.datum? v).elim (.error (.run .exhausted)) .ok
  | .error f => .error f

/-- Evaluates a source text in a session and shows its result. -/
def Session.evaluate (s : Session) (src : Source) :
    MachineM (Except SourceFault Unit × Session) := do
  let (result, world) := evalSource src s.scope s.world
  match resultDatum world.heap result with
  | .ok d =>
    MachineM.writeOut (resultText d (← get).width)
    return (.ok (), { s with world })
  | .error f =>
    MachineM.writeErr (faultText f)
    return (.error f, { s with world })

end EventTally.Shell
