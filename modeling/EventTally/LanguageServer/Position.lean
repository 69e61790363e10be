import EventTally.Text.Bytes

/-! # Positions of editors

Editors give a position as a line and a number of UTF-16 code units on it, both from 0. Sources use
byte offsets. A line ends with a line feed, a carriage return, or both in this order.
-/

namespace EventTally.LanguageServer

structure Position where
  line : Int
  character : Int
  deriving DecidableEq, Repr, Inhabited

namespace Position

def start : Position := { line := 0, character := 0 }

/-- The order by line and then by character. -/
def before (p q : Position) : Bool :=
  p.line < q.line || (p.line = q.line && p.character < q.character)

def units (c : Char) : Int := if c.toNat ≤ 0xFFFF then 1 else 2

/-- The position after a character; `afterReturn` tells that a carriage return came before it. -/
def next (p : Position) (afterReturn : Bool) (c : Char) : Position :=
  if c = '\r' then { line := p.line + 1, character := 0 }
  else if c = '\n' then if afterReturn then p else { line := p.line + 1, character := 0 }
  else { p with character := p.character + units c }

/-- The byte offset and position of each character of a text, and of its end. -/
def walk (afterReturn : Bool) (offset : Nat) (p : Position) : List Char → List (Nat × Position)
  | [] => [(offset, p)]
  | c :: cs => (offset, p) :: walk (c = '\r') (offset + c.utf8Size) (p.next afterReturn c) cs

def places (text : String) : List (Nat × Position) := walk false 0 start text.toList

def stopAt (passed : Nat × Position → Bool) : List (Nat × Position) → Nat × Position
  | [] => (0, start)
  | [place] => place
  | place :: rest => if passed place then stopAt passed rest else place

/-- The byte offset of a position. -/
def toOffset (text : String) (p : Position) : Nat :=
  (stopAt (fun place => place.2.before p) (places text)).1

/-- The position of a byte offset. -/
def ofOffset (text : String) (offset : Nat) : Position :=
  (stopAt (fun place => place.1 < offset) (places text)).2

end Position

end EventTally.LanguageServer
