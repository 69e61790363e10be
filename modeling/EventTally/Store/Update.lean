import EventTally.Store.Basic

/-! # Updates

Replacing an accumulator by what a computation makes of the current one. While it is worked on the
accumulator has another form, a value with an identity for instance; nothing is stored if the
computation fails.
-/

namespace EventTally.Store

/-- How accumulators are worked on in a monad: how stored data are loaded, how results are seen as
data, and how the store's own failures are reported. -/
structure Workshop (m : Type → Type) (α : Type) where
  load : Datum → m α
  save : α → m Datum
  refuse : Reason → m (α × Store)

/-- The current accumulator, or what `init` gives if none is stored. -/
def current [Monad m] (w : Workshop m α) (s : Store) (name : String) (init : m α)
    (next : α → m (α × Store)) : m (α × Store) :=
  match s.tally name with
  | .ok d => do next (← w.load d)
  | .error .noSuchTally => do next (← init)
  | .error r => w.refuse r

/-- Replaces an accumulator by the result of `f` on the current one. -/
def update [Monad m] (w : Workshop m α) (s : Store) (name : String) (init : m α) (f : α → m α) :
    m (α × Store) :=
  s.current w name init fun old => do
    let new ← f old
    match s.setTally name (← w.save new) with
    | .ok s => return (new, s)
    | .error r => w.refuse r

end EventTally.Store
