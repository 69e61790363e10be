import EventTally.Keyed

/-! # Fixtures

A test changes a variable and the environment, and what it changed is put back at its end, the last
change first.
-/

namespace EventTally.Testing

inductive Restore where
  | value (old : String)
  | setting (name : String) (old : Option String)
  deriving DecidableEq, Repr, Inhabited

structure Fixture where
  value : String
  settings : List (String × String)
  /-- What is to be put back, the last change first. -/
  pending : List Restore
  deriving DecidableEq, Repr, Inhabited

namespace Fixture

def setting? (f : Fixture) (name : String) : Option String := Keyed.find? (· == name) f.settings

def assign (f : Fixture) (name : String) : Option String → Fixture
  | some v => { f with settings := Keyed.insert (· == name) name v f.settings }
  | none => { f with settings := Keyed.erase (· == name) f.settings }

def save (f : Fixture) (name : String) : Fixture :=
  { f with pending := .setting name (f.setting? name) :: f.pending }

def change (f : Fixture) (name : String) (v : Option String) : Fixture := (f.save name).assign name v

def setValue (f : Fixture) (v : String) : Fixture :=
  { f with value := v, pending := .value f.value :: f.pending }

def restore (f : Fixture) : Restore → Fixture
  | .value old => { f with value := old }
  | .setting name old => f.assign name old

def finish (f : Fixture) : Fixture := { f.pending.foldl restore f with pending := [] }

end Fixture

end EventTally.Testing
