import EventTally.Yaml.Node

/-! # Scalars of YAML

The rules for the text of scalars that are not plain on one line: how lines are folded, what
escapes mean, and which line ends a block of text keeps.
-/

namespace EventTally.Yaml

def isSpace (c : Char) : Bool := c = ' ' || c = '\t'

def isSpaceOrBreak (c : Char) : Bool := isSpace c || c = '\n'

def trimRight (cs : List Char) : List Char := (cs.reverse.dropWhile isSpace).reverse

def trimLeft (cs : List Char) : List Char := cs.dropWhile isSpace

/-- The lines after the first of a text that flows, `empty` empty ones among them so far. -/
def foldMore (empty : Nat) : List (List Char) → List Char
  | [] => List.replicate empty '\n'
  | [] :: rest => foldMore (empty + 1) rest
  | line :: rest =>
    (if empty = 0 then [' '] else List.replicate empty '\n') ++ line ++ foldMore 0 rest

/-- Joins the lines of a text that flows: one line end is a space, and each empty line after it a
line end. -/
def foldLines : List (List Char) → List Char
  | [] => []
  | line :: rest => line ++ foldMore 0 rest

/-- What the first character after a backslash stands for, if it stands alone. -/
def escaped? (c : Char) : Option Char :=
  match c with
  | '0' => some (Char.ofNat 0)
  | 'a' => some (Char.ofNat 7)
  | 'b' => some (Char.ofNat 8)
  | 't' | '\t' => some '\t'
  | 'n' => some '\n'
  | 'v' => some (Char.ofNat 11)
  | 'f' => some (Char.ofNat 12)
  | 'r' => some '\r'
  | 'e' => some (Char.ofNat 27)
  | ' ' => some ' '
  | '"' => some '"'
  | '/' => some '/'
  | '\\' => some '\\'
  | 'N' => some (Char.ofNat 0x85)
  | '_' => some (Char.ofNat 0xA0)
  | 'L' => some (Char.ofNat 0x2028)
  | 'P' => some (Char.ofNat 0x2029)
  | _ => none

def escapeWidth? (c : Char) : Option Nat :=
  match c with
  | 'x' => some 2
  | 'u' => some 4
  | 'U' => some 8
  | _ => none

def hexNumber? (cs : List Char) : Option Nat :=
  cs.foldlM (fun n c => (Json.hexValue? c).map (16 * n + ·)) 0

inductive Chomp where
  | strip
  | clip
  | keep
  deriving DecidableEq, Repr, Inhabited

/-- The line ends at the end of a block: that of its last line if it has one, and those of the
empty lines after it. -/
def Chomp.ending (c : Chomp) (hasText : Bool) (empty : Nat) : List Char :=
  let last := if hasText then ['\n'] else []
  match c with
  | .strip => []
  | .clip => last
  | .keep => last ++ List.replicate empty '\n'

def joinLiteral : List (List Char) → List Char
  | [] => []
  | [line] => line
  | line :: rest => line ++ '\n' :: joinLiteral rest

/-- Whether a line is indented further than its block, so that it is not folded. -/
def isIndented : List Char → Bool
  | c :: _ => isSpace c
  | [] => false

/-- Joins the lines of a folded block: a single line end between lines that are not indented
further is a space. `previous` is the line before, with the number of empty lines since. -/
def joinFolded (previous : Option (List Char)) (empty : Nat) : List (List Char) → List Char
  | [] => []
  | [] :: rest => joinFolded previous (empty + 1) rest
  | line :: rest =>
    let gap :=
      match previous with
      | none => List.replicate empty '\n'
      | some p =>
        if isIndented p || isIndented line then List.replicate (empty + 1) '\n'
        else if empty = 0 then [' ']
        else List.replicate empty '\n'
    gap ++ line ++ joinFolded (some line) 0 rest

def blockText (folded : Bool) (chomp : Chomp) (lines : List (List Char)) : List Char :=
  let after := (lines.reverse.takeWhile List.isEmpty).length
  let body := lines.take (lines.length - after)
  let text := if folded then joinFolded none 0 body else joinLiteral body
  text ++ chomp.ending (!body.isEmpty) after

end EventTally.Yaml
