import EventTally.Codec

/-! # Rules

A rule defines a tally by six pieces of source code, or names a template that computes them from
parameters.
-/

namespace EventTally

inductive RuleField where
  /-- Evaluated once, for the definitions that the other pieces use. -/
  | base
  /-- The initial accumulator. -/
  | getTally
  /-- The value of a record, which is bound to `instance`. -/
  | getValue
  /-- Whether a value, bound to `value`, counts. -/
  | filterValue
  /-- The accumulator after a change of `tally` from `old_value` to `new_value`. -/
  | handleChange
  /-- The group of a value, bound to `value`. -/
  | getGroup
  deriving DecidableEq, Repr, Inhabited

namespace RuleField

def name : RuleField → String
  | .base => "base"
  | .getTally => "get_tally"
  | .getValue => "get_value"
  | .filterValue => "filter_value"
  | .handleChange => "handle_change"
  | .getGroup => "get_group"

def all : List RuleField :=
  [.base, .getTally, .getValue, .filterValue, .handleChange, .getGroup]

def ofName? (name : String) : Option RuleField := all.find? fun f => f.name == name

/-- The code of a field that a rule leaves empty; required fields have none. -/
def default : RuleField → String
  | .base => "null"
  | .getValue => "instance"
  | .filterValue => "true"
  | _ => ""

end RuleField

structure Rule where
  name : String
  /-- The code of each field, empty if it is not given. -/
  code : RuleField → String
  /-- The template that computes the code, empty if there is none. -/
  template : String
  /-- The parameters for the template, as source code. -/
  params : Option (List (String × String))

namespace Rule

def blank : Rule := { name := "", code := fun _ => "", template := "", params := none }

instance : Inhabited Rule := ⟨blank⟩

def setCode (r : Rule) (f : RuleField) (code : String) : Rule :=
  { r with code := fun g => if g = f then code else r.code g }

def hasCode (r : Rule) : Bool := RuleField.all.any fun f => r.code f != ""

def withDefaults (r : Rule) : Rule :=
  { r with code := fun f => if r.code f = "" then f.default else r.code f }

end Rule

end EventTally
