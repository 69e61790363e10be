import EventTally.Text.Printable

/-! # Quoted text

Two ways to write a text between double quotes. A literal escapes only what the language's reader
needs: backslash, quote, line feed, tab and carriage return. A mention, used when a message quotes
a piece of input, escapes every character that cannot be seen.
-/

namespace EventTally.Text

def literalChar (c : Char) : List Char :=
  match c with
  | '\\' => ['\\', '\\']
  | '"' => ['\\', '"']
  | '\n' => ['\\', 'n']
  | '\t' => ['\\', 't']
  | '\r' => ['\\', 'r']
  | c => [c]

def literalChars (cs : List Char) : List Char := '"' :: cs.flatMap literalChar ++ ['"']

def literal (s : String) : String := String.ofList (literalChars s.toList)

/-- Reads the inside of a literal. A backslash makes `n`, `t` and `r` stand for the control
characters and any other character for itself. -/
def unescape : List Char → List Char
  | [] => []
  | '\\' :: [] => []
  | '\\' :: c :: rest =>
    (match c with
     | 'n' => '\n'
     | 't' => '\t'
     | 'r' => '\r'
     | c => c) :: unescape rest
  | c :: rest => c :: unescape rest

theorem unescape_literalChar_append (c : Char) (rest : List Char) :
    unescape (literalChar c ++ rest) = c :: unescape rest := by
  unfold literalChar
  split
  · simp [unescape]
  · simp [unescape]
  · simp [unescape]
  · simp [unescape]
  · simp [unescape]
  · rename_i h _ _ _ _
    rw [List.singleton_append, unescape]
    · intro h' _; exact h h'
    · intro _ _ h' _; exact h h'

theorem unescape_flatMap_literalChar (cs : List Char) :
    unescape (cs.flatMap literalChar) = cs := by
  induction cs with
  | nil => rfl
  | cons c cs ih => rw [List.flatMap_cons, unescape_literalChar_append, ih]

def hexDigit (n : Nat) : Char := Nat.digitChar (n % 16)

def hexDigits (width n : Nat) : List Char :=
  (List.range width).map fun i => hexDigit (n / Nat.pow 16 (width - 1 - i))

def mentionChar (c : Char) : List Char :=
  let n := c.toNat
  if c = '"' then ['\\', '"']
  else if c = '\\' then ['\\', '\\']
  else if isPrintable c then [c]
  else if n = 7 then ['\\', 'a']
  else if n = 8 then ['\\', 'b']
  else if n = 12 then ['\\', 'f']
  else if n = 10 then ['\\', 'n']
  else if n = 13 then ['\\', 'r']
  else if n = 9 then ['\\', 't']
  else if n = 11 then ['\\', 'v']
  else if n < 0x80 then '\\' :: 'x' :: hexDigits 2 n
  else if n < 0x10000 then '\\' :: 'u' :: hexDigits 4 n
  else '\\' :: 'U' :: hexDigits 8 n

def mention (s : String) : String :=
  String.ofList ('"' :: s.toList.flatMap mentionChar ++ ['"'])

end EventTally.Text
