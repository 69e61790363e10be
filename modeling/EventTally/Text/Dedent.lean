import EventTally.Text.Bytes

/-! # Removing a common margin

Text written inside indented code: the margin that all lines share is removed, and lines that
hold only spaces and tabs become empty.
-/

namespace EventTally.Text

def isMarginChar (c : Char) : Bool := c = ' ' || c = '\t'

def commonStart : List Char → List Char → List Char
  | a :: as, b :: bs => if a = b then a :: commonStart as bs else []
  | _, _ => []

def margin (lines : List (List Char)) : List Char :=
  match (lines.filter fun l => !l.all isMarginChar).map (·.takeWhile isMarginChar) with
  | [] => []
  | first :: rest => rest.foldl commonStart first

def dedent (s : String) : String :=
  let cs :=
    match s.toList with
    | '\n' :: cs => cs
    | cs => cs
  let lines := splitLines cs
  let m := margin lines
  "\n".intercalate (lines.map fun l =>
    String.ofList (if l.all isMarginChar then [] else l.drop m.length))

end EventTally.Text
