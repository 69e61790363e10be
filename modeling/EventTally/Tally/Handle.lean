import EventTally.Tally.Basic

/-! # Handling events

How a tally changes its accumulator. The values of the record before and after an event are those
that pass the filter. If neither does, nothing changes; else the accumulator changes from the old
value to the new one. A grouped tally keeps a dict of accumulators: a change within a group changes
that of the group, and a change between groups is a removal from one and an addition to the other.
-/

namespace EventTally.Tally

/-- The accumulator of a group that nothing has been counted in. -/
def initialOfGroup (t : Tally) : RunM Value := t.run .getTally []

/-- The accumulator before any event: an empty dict for a grouped tally. -/
def initial (t : Tally) : RunM Value :=
  if t.grouped then do return .dict (← allocate (·.newDict []))
  else t.initialOfGroup

/-- The value of a record. -/
def value (t : Tally) (record : Value) : RunM Value := t.run .getValue [("instance", record)]

/-- Whether a value counts. -/
def filter (t : Tally) (v : Value) : RunM Bool := do
  let result ← t.run .filterValue [("value", v)]
  return (← heap).truthy result

def change (t : Tally) (acc old new : Value) : RunM Value :=
  t.run .handleChange [("tally", acc), ("old_value", old), ("new_value", new)]

/-- The group of a value; null has the group null. -/
def group (t : Tally) (v : Value) : RunM Value :=
  match v with
  | .null => return .null
  | v => t.run .getGroup [("value", v)]

def isNull : Value → Bool
  | .null => true
  | _ => false

def filteredValue (t : Tally) (model : String) (fields : Option Fields) : RunM Value := do
  match fields with
  | none => return .null
  | some fields =>
    match Event.record model fields with
    | .error r => throw (.record r)
    | .ok d =>
      let v ← t.value (← allocate (·.thaw d))
      if isNull v then return .null
      else return if ← t.filter v then v else .null

/-- Changes the accumulator of one group, which starts from the initial one. -/
def changeGroup (t : Tally) (g old new : Value) (groups : List (Value × Value)) :
    RunM (List (Value × Value)) := do
  let acc ←
    match (← heap).findEntry groups g with
    | some acc => pure acc
    | none => t.initialOfGroup
  let acc ← t.change acc old new
  match (← heap).insertEntry g acc groups with
  | .ok groups => return groups
  | .error r => t.reject .getGroup r

/-- Changes the accumulator of a group unless the group is null. -/
def changeNonNull (t : Tally) (g old new : Value) (groups : List (Value × Value)) :
    RunM (List (Value × Value)) :=
  if isNull g then return groups else t.changeGroup g old new groups

/-- Applies a change to the groups of the old and the new value. -/
def changeGroups (t : Tally) (old new : Value) (groups : List (Value × Value)) :
    RunM (List (Value × Value)) := do
  let oldGroup ← t.group old
  let newGroup ← t.group new
  match (← heap).equal? oldGroup newGroup with
  | some true => t.changeNonNull newGroup old new groups
  | some false =>
    t.changeNonNull newGroup .null new (← t.changeNonNull oldGroup old .null groups)
  | none => throw .crashed

def changeGrouped (t : Tally) (acc old new : Value) : RunM Value := do
  match acc with
  | .dict r =>
    let groups ← t.changeGroups old new ((← heap).entries r)
    return .dict (← allocate (·.newDict groups))
  | acc => t.reject .getGroup (.accumulatorKind acc.kind)

def handle (t : Tally) (acc : Value) (ev : Event) : RunM Value := do
  let old ← t.filteredValue ev.model ev.old
  let new ← t.filteredValue ev.model ev.new
  if isNull old && isNull new then return acc
  else if t.grouped then t.changeGrouped acc old new
  else t.change acc old new

end EventTally.Tally
