/-! # The debug log

Parts of the program note what they do, each under its topic. Whether the notes are kept, and the
time that stands before each, is up to who runs the program.
-/

namespace EventTally

structure LogEntry where
  topic : String
  message : String
  deriving DecidableEq, Repr, Inhabited

/-- The entry on one line, without its time. -/
def LogEntry.text (e : LogEntry) : String := "[" ++ e.topic ++ "] " ++ e.message

end EventTally
