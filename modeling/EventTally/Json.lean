import EventTally.Text.Quoted

/-! # JSON text

A JSON value keeps its numbers as text and the fields of an object in order, repeated names
included. Reading takes one value from the front of a text and says what is left; writing uses
no spaces and also escapes the characters that are special in a web page.
-/

namespace EventTally

inductive Json where
  | null
  | bool (b : Bool)
  | num (text : String)
  | str (s : String)
  | arr (elems : List Json)
  | obj (fields : List (String × Json))
  deriving Inhabited

namespace Json

def writeChar (c : Char) : List Char :=
  let n := c.toNat
  if c = '"' then ['\\', '"']
  else if c = '\\' then ['\\', '\\']
  else if n = 8 then ['\\', 'b']
  else if n = 12 then ['\\', 'f']
  else if n = 10 then ['\\', 'n']
  else if n = 13 then ['\\', 'r']
  else if n = 9 then ['\\', 't']
  else if n < 0x20 || c = '<' || c = '>' || c = '&' || n = 0x2028 || n = 0x2029 then
    '\\' :: 'u' :: Text.hexDigits 4 n
  else [c]

def writeString (s : String) : List Char := '"' :: s.toList.flatMap writeChar ++ ['"']

mutual

def write : Json → List Char
  | .null => ['n', 'u', 'l', 'l']
  | .bool b => if b then ['t', 'r', 'u', 'e'] else ['f', 'a', 'l', 's', 'e']
  | .num text => text.toList
  | .str s => writeString s
  | .arr [] => ['[', ']']
  | .arr (j :: js) => '[' :: write j ++ writeElems js
  | .obj [] => ['\x7b', '\x7d']
  | .obj ((name, j) :: fields) =>
    '\x7b' :: writeString name ++ ':' :: write j ++ writeFields fields

def writeElems : List Json → List Char
  | [] => [']']
  | j :: js => ',' :: write j ++ writeElems js

def writeFields : List (String × Json) → List Char
  | [] => ['\x7d']
  | (name, j) :: fields => ',' :: writeString name ++ ':' :: write j ++ writeFields fields

end

mutual

/-- How deep arrays and objects with something in them are nested. -/
def opened : Json → Nat
  | .arr [] | .obj [] => 0
  | .arr (j :: js) => max (opened j) (openedElems js) + 1
  | .obj ((_, j) :: fields) => max (opened j) (openedFields fields) + 1
  | _ => 0

def openedElems : List Json → Nat
  | [] => 0
  | j :: js => max (opened j) (openedElems js)

def openedFields : List (String × Json) → Nat
  | [] => 0
  | (_, j) :: fields => max (opened j) (openedFields fields)

end

/-- The value as text without spaces. -/
def text (j : Json) : String := String.ofList j.write

def isSpace (c : Char) : Bool := c = ' ' || c = '\t' || c = '\n' || c = '\r'

def skipSpace (cs : List Char) : List Char := cs.dropWhile isSpace

def isDigit (c : Char) : Bool := '0' ≤ c && c ≤ '9'

def hexValue? (c : Char) : Option Nat :=
  if '0' ≤ c && c ≤ '9' then some (c.toNat - '0'.toNat)
  else if 'a' ≤ c && c ≤ 'f' then some (c.toNat - 'a'.toNat + 10)
  else if 'A' ≤ c && c ≤ 'F' then some (c.toNat - 'A'.toNat + 10)
  else none

def unit? (a b c d : Char) : Option Nat := do
  return (((← hexValue? a) * 16 + (← hexValue? b)) * 16 + (← hexValue? c)) * 16 + (← hexValue? d)

def isHighSurrogate (n : Nat) : Bool := 0xD800 ≤ n && n < 0xDC00

def isLowSurrogate (n : Nat) : Bool := 0xDC00 ≤ n && n < 0xE000

def unitChar (n : Nat) : Char :=
  if isHighSurrogate n || isLowSurrogate n then Char.ofNat 0xFFFD else Char.ofNat n

def pairChar (high low : Nat) : Char :=
  Char.ofNat (0x10000 + (high - 0xD800) * 0x400 + (low - 0xDC00))

def shortEscape? (c : Char) : Option Char :=
  match c with
  | '"' => some '"'
  | '\\' => some '\\'
  | '/' => some '/'
  | 'b' => some (Char.ofNat 8)
  | 'f' => some (Char.ofNat 12)
  | 'n' => some '\n'
  | 'r' => some '\r'
  | 't' => some '\t'
  | _ => none

/-- The inside of a string up to its closing quote, as code points and code units, and what
follows the quote. -/
def readUnits : List Char → Option (List Nat × List Char)
  | [] => none
  | '"' :: rest => some ([], rest)
  | '\\' :: 'u' :: a :: b :: c :: d :: rest =>
    match unit? a b c d with
    | some n => (readUnits rest).map fun (ns, r) => (n :: ns, r)
    | none => none
  | '\\' :: c :: rest =>
    match shortEscape? c with
    | some e => (readUnits rest).map fun (ns, r) => (e.toNat :: ns, r)
    | none => none
  | c :: rest =>
    if c.toNat < 0x20 || c = '\\' then none
    else (readUnits rest).map fun (ns, r) => (c.toNat :: ns, r)

/-- The characters of code points and code units; two halves of a pair make one character. -/
def joinUnits : List Nat → List Char
  | [] => []
  | [n] => [unitChar n]
  | n :: m :: ns =>
    if isHighSurrogate n && isLowSurrogate m then pairChar n m :: joinUnits ns
    else unitChar n :: joinUnits (m :: ns)

def readChars (cs : List Char) : Option (List Char × List Char) :=
  (readUnits cs).map fun (ns, r) => (joinUnits ns, r)

/-- The digits of a whole number: a zero, or digits that do not start with one. -/
def readWhole : List Char → Option (List Char × List Char)
  | '0' :: rest => some (['0'], rest)
  | cs =>
    match cs.takeWhile isDigit with
    | [] => none
    | digits => some (digits, cs.dropWhile isDigit)

def readPlaces : List Char → Option (List Char × List Char)
  | '.' :: rest =>
    match rest.takeWhile isDigit with
    | [] => none
    | digits => some ('.' :: digits, rest.dropWhile isDigit)
  | cs => some ([], cs)

def readPower (mark : List Char) (cs : List Char) : Option (List Char × List Char) :=
  match cs.takeWhile isDigit with
  | [] => none
  | digits => some (mark ++ digits, cs.dropWhile isDigit)

def readExponent : List Char → Option (List Char × List Char)
  | c :: rest =>
    if c = 'e' || c = 'E' then
      match rest with
      | '+' :: rest => readPower [c, '+'] rest
      | '-' :: rest => readPower [c, '-'] rest
      | rest => readPower [c] rest
    else some ([], c :: rest)
  | [] => some ([], [])

def readNumber (cs : List Char) : Option (List Char × List Char) := do
  let (sign, cs) :=
    match cs with
    | '-' :: rest => (['-'], rest)
    | cs => ([], cs)
  let (whole, cs) ← readWhole cs
  let (places, cs) ← readPlaces cs
  let (exponent, cs) ← readExponent cs
  return (sign ++ whole ++ places ++ exponent, cs)

def readWord : List Char → List Char → Option (List Char)
  | [], cs => some cs
  | _ :: _, [] => none
  | w :: ws, c :: cs => if w = c then readWord ws cs else none

/-- How deep arrays and objects may be nested. -/
def maxDepth : Nat := 10000

mutual

def readValue : Nat → Nat → List Char → Option (Json × List Char)
  | 0, _, _ => none
  | fuel + 1, depth, cs =>
    match cs with
    | [] => none
    | 'n' :: rest => (readWord ['u', 'l', 'l'] rest).map fun r => (.null, r)
    | 't' :: rest => (readWord ['r', 'u', 'e'] rest).map fun r => (.bool true, r)
    | 'f' :: rest => (readWord ['a', 'l', 's', 'e'] rest).map fun r => (.bool false, r)
    | '"' :: rest => (readChars rest).map fun (s, r) => (.str (String.ofList s), r)
    | '[' :: rest =>
      match depth, skipSpace rest with
      | 0, _ => none
      | _ + 1, ']' :: rest => some (.arr [], rest)
      | depth + 1, rest => do
        let (j, rest) ← readValue fuel depth rest
        let (js, rest) ← readElems fuel depth (skipSpace rest)
        return (.arr (j :: js), rest)
    | '\x7b' :: rest =>
      match depth, skipSpace rest with
      | 0, _ => none
      | _ + 1, '\x7d' :: rest => some (.obj [], rest)
      | depth + 1, rest => do
        let (field, rest) ← readField fuel depth rest
        let (fields, rest) ← readFields fuel depth (skipSpace rest)
        return (.obj (field :: fields), rest)
    | cs => (readNumber cs).map fun (digits, r) => (.num (String.ofList digits), r)

def readElems : Nat → Nat → List Char → Option (List Json × List Char)
  | 0, _, _ => none
  | fuel + 1, depth, cs =>
    match cs with
    | ']' :: rest => some ([], rest)
    | ',' :: rest => do
      let (j, rest) ← readValue fuel depth (skipSpace rest)
      let (js, rest) ← readElems fuel depth (skipSpace rest)
      return (j :: js, rest)
    | _ => none

def readField : Nat → Nat → List Char → Option ((String × Json) × List Char)
  | 0, _, _ => none
  | fuel + 1, depth, cs =>
    match cs with
    | '"' :: rest => do
      let (name, rest) ← readChars rest
      match skipSpace rest with
      | ':' :: rest =>
        let (j, rest) ← readValue fuel depth (skipSpace rest)
        return ((String.ofList name, j), rest)
      | _ => none
    | _ => none

def readFields : Nat → Nat → List Char → Option (List (String × Json) × List Char)
  | 0, _, _ => none
  | fuel + 1, depth, cs =>
    match cs with
    | '\x7d' :: rest => some ([], rest)
    | ',' :: rest => do
      let (field, rest) ← readField fuel depth (skipSpace rest)
      let (fields, rest) ← readFields fuel depth (skipSpace rest)
      return (field :: fields, rest)
    | _ => none

end

def readFirst (cs : List Char) : Option (Json × List Char) :=
  readValue (2 * cs.length + 2) maxDepth (skipSpace cs)

/-- Whether something other than the end or a closing bracket follows a value. -/
def hasMore (rest : List Char) : Bool :=
  match skipSpace rest with
  | [] => false
  | c :: _ => c != ']' && c != '\x7d'

/-- The value of a field, the last one if the name is repeated. -/
def field? (name : String) : Json → Option Json
  | .obj fields => (fields.reverse.find? (·.1 == name)).map (·.2)
  | _ => none

end Json

end EventTally
