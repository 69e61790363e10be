import EventTally.Text.Bytes
import EventTally.Text.TitleCase

/-! # Excerpts

A range of a named text that a message points at. It is described by line and column, and shown
as the line or lines around the range with the range itself highlighted.
-/

namespace EventTally

structure Excerpt where
  name : String
  source : String
  start : Int
  stop : Int
  deriving DecidableEq, Repr, Inhabited

def culpritStart : String := "\x1b[1;4m"

def culpritEnd : String := "\x1b[m"

def messageStart : String := "\x1b[31;1m"

def messageEnd : String := "\x1b[m"

namespace Excerpt

def isValid (e : Excerpt) : Bool :=
  0 ≤ e.start && e.stop ≤ Text.byteLength e.source.toList && e.start ≤ e.stop

def invalidText (e : Excerpt) : String :=
  e.name ++ ", invalid position " ++ toString e.start ++ "-" ++ toString e.stop

def before (e : Excerpt) : List Char := Text.cut e.source.toList 0 e.start.toNat

def culprit (e : Excerpt) : List Char := Text.cut e.source.toList e.start.toNat e.stop.toNat

def after (e : Excerpt) : List Char :=
  Text.cut e.source.toList e.stop.toNat (Text.byteLength e.source.toList)

/-- The line and the column of the start, both from 1, the column in characters. -/
def position (e : Excerpt) : Nat × Nat :=
  ((e.before.count '\n') + 1, (Text.lastLine e.before).length + 1)

def describe (e : Excerpt) : String :=
  if e.isValid then
    let (line, column) := e.position
    e.name ++ ":" ++ toString line ++ ":" ++ toString column
  else e.invalidText

/-- The position and the source lines, the range highlighted. Lines of the range after the first
are indented to where the source text starts. -/
def render (e : Excerpt) (indent : String) : String :=
  if e.isValid then
    let culprit := e.culprit
    let endsLine := culprit.getLast? == some '\n'
    let shown := if endsLine then culprit.dropLast else culprit
    let tail := if endsLine then [] else Text.firstLine e.after
    let marked := if shown.isEmpty then ['^'] else shown
    let lead := "\n" ++ indent ++ String.ofList (List.replicate (e.describe.utf8ByteSize + 2) ' ')
    let lines := (Text.splitLines marked).map fun line =>
      culpritStart ++ String.ofList line ++ culpritEnd
    e.describe ++ ": " ++ String.ofList (Text.lastLine e.before) ++ lead.intercalate lines
      ++ String.ofList tail
  else e.invalidText

end Excerpt

/-- A message about a range of a text. `topic` says what kind of message it is. -/
structure Diagnostic where
  topic : String
  message : String
  excerpt : Excerpt
  deriving DecidableEq, Repr, Inhabited

namespace Diagnostic

/-- The message on one line. -/
def text (d : Diagnostic) : String :=
  d.topic ++ ": " ++ d.excerpt.describe ++ ": " ++ d.message

def render (d : Diagnostic) (indent : String) : String :=
  Text.title d.topic ++ ": " ++ messageStart ++ d.message ++ messageEnd ++ "\n" ++ indent ++ "  "
    ++ d.excerpt.render (indent ++ "  ")

end Diagnostic

def complaint (message : String) : String := messageStart ++ message ++ messageEnd ++ "\n"

end EventTally
