/-! # Byte offsets

Positions in a text are offsets into its UTF-8 encoding. A cut that falls inside a character
leaves one replacement character for each of its bytes that is kept.
-/

namespace EventTally.Text

/-- The number of bytes that a run of characters takes in UTF-8. -/
def byteLength : List Char → Nat
  | [] => 0
  | c :: cs => c.utf8Size + byteLength cs

@[simp] theorem byteLength_nil : byteLength [] = 0 := rfl

@[simp] theorem byteLength_cons (c : Char) (cs : List Char) :
    byteLength (c :: cs) = c.utf8Size + byteLength cs := rfl

@[simp] theorem byteLength_append (xs ys : List Char) :
    byteLength (xs ++ ys) = byteLength xs + byteLength ys := by
  induction xs with
  | nil => simp
  | cons c cs ih => simp [ih, Nat.add_assoc]

def replacement : Char := Char.ofNat 0xFFFD

/-- The bytes from offset `lo` up to offset `hi`, as characters. -/
def cut : List Char → Nat → Nat → List Char
  | [], _, _ => []
  | c :: cs, lo, hi =>
    let size := c.utf8Size
    let kept :=
      if lo == 0 && size ≤ hi then [c]
      else List.replicate (min hi size - min lo size) replacement
    kept ++ cut cs (lo - size) (hi - size)

/-- The text after its last line feed. -/
def lastLine (cs : List Char) : List Char := (cs.reverse.takeWhile (· != '\n')).reverse

def firstLine (cs : List Char) : List Char := cs.takeWhile (· != '\n')

/-- The parts of a text between line feeds. There is always at least one. -/
def splitLines (cs : List Char) : List (List Char) :=
  cs.foldr (fun c acc => if c = '\n' then [] :: acc else
    match acc with
    | [] => [[c]]
    | line :: rest => (c :: line) :: rest) [[]]

/-- Removes one line ending, a line feed with or without a carriage return before it. -/
def chopLineEnding (s : String) : String :=
  match s.toList.reverse with
  | '\n' :: '\r' :: rest => String.ofList rest.reverse
  | '\n' :: rest => String.ofList rest.reverse
  | _ => s

/-- Removes the last character if it is the given ASCII terminator. -/
def chopTerminator (s : String) (terminator : Char) : String :=
  match s.toList.reverse with
  | c :: rest => if c = terminator then String.ofList rest.reverse else s
  | [] => s

end EventTally.Text
