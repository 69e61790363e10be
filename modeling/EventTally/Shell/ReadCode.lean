import EventTally.Source.Parser

/-! # Reading code line by line

Lines are collected until they form a piece of code that more lines cannot make valid: it parses,
or it has an error that does not come from its end. What is collected when the input ends is a
piece too. An interrupt drops what has been collected.
-/

namespace EventTally.Shell

inductive Typed where
  | line (text : String)
  | interrupt
  deriving DecidableEq, Repr, Inhabited

inductive ReadEvent where
  | prompt (text : String)
  | code (text : String)
  | interrupted
  | ended
  deriving DecidableEq, Repr, Inhabited

def mainPrompt : String := "tally> "

def contPrompt : String := "  ...> "

/-- The prompt for the next line after what has been collected. -/
def promptAfter (pending : String) : String := if pending = "" then mainPrompt else contPrompt

/-- Whether code fails to parse only because it ends too early. -/
def isUnfinished (code : String) : Bool :=
  match Source.parse? { name := "[tty]", code } with
  | .error e => e.isPartial
  | .ok _ => false

def addLine (pending line : String) : String :=
  if pending = "" then line else pending ++ "\n" ++ line

/-- Takes what was typed at a prompt: the piece of code or interrupt that it completes, and what is
collected then. -/
def take (pending : String) : Typed → Option ReadEvent × String
  | .interrupt => (some .interrupted, "")
  | .line l =>
    let code := addLine pending l
    if isUnfinished code then (none, code) else (some (.code code), "")

def transcript (pending : String) : List Typed → List ReadEvent
  | [] =>
    if pending = "" then [.prompt mainPrompt, .ended]
    else [.prompt contPrompt, .code pending, .prompt mainPrompt, .ended]
  | t :: ts =>
    let (event, later) := take pending t
    .prompt (promptAfter pending) :: (event.toList ++ transcript later ts)

/-- The pieces of code that lines are read as. -/
def pieces (lines : List String) : List String :=
  (transcript "" (lines.map .line)).filterMap fun
    | .code c => some c
    | _ => none

end EventTally.Shell
