import EventTally.Codec
import EventTally.Json.Problem

/-! # Events

An event is a change of a record of some model: the record before and after it. A creation has no
record before it, a deletion none after it. Events are written as JSON objects.
-/

namespace EventTally

abbrev Fields := List (String × Json)

structure Event where
  model : String
  old : Option Fields
  new : Option Fields
  deriving Inhabited

inductive EventFault where
  | syntaxError (p : Json.Problem)
  /-- A value of the wrong kind, and where it is. -/
  | misfit (kind place : String)
  | unknownField (name : String)
  | noModel
  | noChange
  deriving DecidableEq, Repr, Inhabited

namespace EventFault

def message : EventFault → String
  | .syntaxError p => p.message
  | .misfit kind place => "json: cannot unmarshal " ++ kind ++ " into Go " ++ place
  | .unknownField name => "json: unknown field " ++ Text.mention name
  | .noModel => "event has no model"
  | .noChange => "event has neither old nor new record"

end EventFault

namespace Event

def blank : Event := { model := "", old := none, new := none }

/-- What an object adds to the fields read so far: each name keeps its last value. -/
def mergeFields (former : Option Fields) (fields : Fields) : Fields :=
  Keyed.ofEntries (former.getD [] ++ fields)

def kindOf : Json → String
  | .null => "null"
  | .bool _ => "bool"
  | .num _ => "number"
  | .str _ => "string"
  | .arr _ => "array"
  | .obj _ => "object"

def misfit (field type : String) (j : Json) : EventFault :=
  .misfit (kindOf j) ("struct field Event." ++ field ++ " of type " ++ type)

/-- The record that a JSON value leaves when it is read over a former one. -/
def readRecord (field : String) (former : Option Fields) : Json → Except EventFault (Option Fields)
  | .null => .ok none
  | .obj fields => .ok (some (mergeFields former fields))
  | j => .error (misfit field "map[string]interface \x7b\x7d" j)

def readModel (former : String) : Json → Except EventFault String
  | .null => .ok former
  | .str s => .ok s
  | j => .error (misfit "model" "string" j)

/-- Reads one field of an event. The case of its name does not matter. -/
def readField (ev : Event) (name : String) (j : Json) : Except EventFault Event :=
  match name.toLower with
  | "model" => do return { ev with model := ← readModel ev.model j }
  | "old" => do return { ev with old := ← readRecord "old" ev.old j }
  | "new" => do return { ev with new := ← readRecord "new" ev.new j }
  | _ => .error (.unknownField name)

def ofJson : Json → Except EventFault Event
  | .null => .ok blank
  | .obj fields => fields.foldlM (fun ev (name, j) => ev.readField name j) blank
  | j => .error (.misfit (kindOf j) "value of type tally.Event")

/-- An event must name its model and have at least one record. -/
def check (ev : Event) : Except EventFault Event :=
  if ev.model = "" then .error .noModel
  else if ev.old.isNone && ev.new.isNone then .error .noChange
  else .ok ev

/-- The event that the first JSON value of a line describes. -/
def parse (line : List Char) : Except EventFault Event :=
  match Json.readFirst line with
  | none => .error (.syntaxError ((Json.problem? line).getD .truncated))
  | some (j, _) => ofJson j >>= check

/-- A record as a dict keyed by symbols, with the model under `__class__` unless the record has a
field of that name. -/
def record (model : String) (fields : Fields) : Except Reason Datum := do
  let entries ← (Keyed.ofEntries fields).mapM fun (name, j) => do
    return (name, ← Codec.decodePlain j)
  let entries := Keyed.ofEntries (("__class__", Datum.str model) :: entries)
  return .dict (entries.map fun (name, d) => (.sym name, d))

end Event

end EventTally
