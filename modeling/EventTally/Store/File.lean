import EventTally.Store.Basic

/-! # Stores in files

A store is written to a file as one JSON object, which names its format so that it is told from
other files.
-/

namespace EventTally.Store

def formatName : String := "tally store 1"

def toJson (s : Store) : Json :=
  .obj [("format", .str formatName),
    ("tallies", .arr (s.tallies.map fun (name, text) => .arr [.str name, .str text])),
    ("history", .arr (s.history.map fun e => .arr [.num (toString e.seq), .str e.code])),
    ("lastSeq", .num (toString s.lastSeq))]

def pairOfJson? : Json → Option (String × String)
  | .arr [.str name, .str text] => some (name, text)
  | _ => none

def entryOfJson? : Json → Option HistoryEntry
  | .arr [.num seq, .str code] => seq.toNat?.map fun seq => { seq, code }
  | _ => none

def ofJson? (j : Json) : Option Store :=
  match j.field? "format", j.field? "tallies", j.field? "history", j.field? "lastSeq" with
  | some (.str format), some (.arr tallies), some (.arr history), some (.num lastSeq) =>
    if format = formatName then do
      return { tallies := ← tallies.mapM pairOfJson?, history := ← history.mapM entryOfJson?
               lastSeq := ← lastSeq.toNat? }
    else none
  | _, _, _, _ => none

def fileText (s : Store) : String := s.toJson.text ++ "\n"

def ofFileText? (text : String) : Option Store :=
  (Json.readFirst text.toList).bind fun (j, _) => ofJson? j

end EventTally.Store
