import EventTally.Json
import EventTally.Decimal.Reading

/-! # YAML documents

A document is a tree of scalars, sequences and mappings. Each node knows its line. A scalar has a
tag, which for plain text follows from the text.
-/

namespace EventTally.Yaml

inductive Tag where
  | null
  | bool
  | int
  | float
  | timestamp
  | str
  deriving DecidableEq, Repr, Inhabited

namespace Tag

def name : Tag → String
  | .null => "!!null"
  | .bool => "!!bool"
  | .int => "!!int"
  | .float => "!!float"
  | .timestamp => "!!timestamp"
  | .str => "!!str"

def nullTexts : List String := ["", "~", "null", "Null", "NULL"]

def boolTexts : List String := ["true", "True", "TRUE", "false", "False", "FALSE"]

def floatTexts : List String :=
  [".nan", ".NaN", ".NAN", ".inf", ".Inf", ".INF", "+.inf", "+.Inf", "+.INF", "-.inf", "-.Inf",
   "-.INF"]

def isOctal (c : Char) : Bool := '0' ≤ c && c ≤ '7'

def isBinary (c : Char) : Bool := c = '0' || c = '1'

def isHex (c : Char) : Bool := (Json.hexValue? c).isSome

def allDigits (isDigit : Char → Bool) (cs : List Char) : Bool := !cs.isEmpty && cs.all isDigit

/-- Whether digits without a sign write an integer that fits 64 bits. -/
def isWholeText : List Char → Bool
  | '0' :: 'x' :: cs | '0' :: 'X' :: cs => allDigits isHex cs
  | '0' :: 'o' :: cs | '0' :: 'O' :: cs => allDigits isOctal cs
  | '0' :: 'b' :: cs | '0' :: 'B' :: cs => allDigits isBinary cs
  | '0' :: c :: cs => allDigits isOctal (c :: cs)
  | cs => allDigits Json.isDigit cs && Decimal.natOfDigits cs ≤ 18446744073709551615

def isExponentText : List Char → Bool
  | [] => true
  | c :: cs =>
    (c = 'e' || c = 'E') &&
      match cs with
      | '+' :: cs | '-' :: cs => allDigits Json.isDigit cs
      | cs => allDigits Json.isDigit cs

/-- Whether digits without a sign write a float: digits with an optional point among or after
them, or a point and digits, and an optional exponent. -/
def isFloatText (cs : List Char) : Bool :=
  let whole := cs.takeWhile Json.isDigit
  match cs.dropWhile Json.isDigit with
  | '.' :: rest =>
    let places := rest.takeWhile Json.isDigit
    !(whole.isEmpty && places.isEmpty) && isExponentText (rest.dropWhile Json.isDigit)
  | rest => !whole.isEmpty && isExponentText rest

/-- Whether a text is a date: four digits, and one or two each for month and day. -/
def isDateText (cs : List Char) : Bool :=
  let short := fun (ds : List Char) => allDigits Json.isDigit ds && ds.length ≤ 2
  match (String.ofList cs).splitOn "-" with
  | [year, month, day] =>
    year.length == 4 && allDigits Json.isDigit year.toList && short month.toList
      && short day.toList
      && 1 ≤ Decimal.natOfDigits month.toList && Decimal.natOfDigits month.toList ≤ 12
      && 1 ≤ Decimal.natOfDigits day.toList && Decimal.natOfDigits day.toList ≤ 31
  | _ => false

/-- The text of a number without its sign and the underscores in it. -/
def unsignedText (cs : List Char) : List Char :=
  match cs.filter (· != '_') with
  | '+' :: cs | '-' :: cs => cs
  | cs => cs

def startsNumber : List Char → Bool
  | c :: _ => Json.isDigit c || c = '+' || c = '-'
  | [] => false

def ofPlain (text : String) : Tag :=
  let cs := text.toList
  if nullTexts.contains text then .null
  else if boolTexts.contains text then .bool
  else if floatTexts.contains text then .float
  else if startsNumber cs then
    if isDateText cs then .timestamp
    else if isWholeText (unsignedText cs) then .int
    else if isFloatText (unsignedText cs) then .float
    else .str
  else if cs.head? == some '.' && isFloatText cs then .float
  else .str

end Tag

inductive Node where
  | scalar (line : Nat) (tag : Tag) (text : String)
  | seq (line : Nat) (elems : List Node)
  | map (line : Nat) (entries : List (Node × Node))
  deriving Inhabited

namespace Node

def line : Node → Nat
  | .scalar l _ _ | .seq l _ | .map l _ => l

def absent (line : Nat) : Node := .scalar line .null ""

def isNull : Node → Bool
  | .scalar _ .null _ => true
  | _ => false

mutual

/-- JSON on one line. -/
def ofJson : Json → Node
  | .null => .scalar 1 .null "null"
  | .bool b => .scalar 1 .bool (if b then "true" else "false")
  | .num text => .scalar 1 (Tag.ofPlain text) text
  | .str s => .scalar 1 .str s
  | .arr js => .seq 1 (ofJsons js)
  | .obj fields => .map 1 (ofFields fields)

def ofJsons : List Json → List Node
  | [] => []
  | j :: js => ofJson j :: ofJsons js

def ofFields : List (String × Json) → List (Node × Node)
  | [] => []
  | (name, j) :: fields => (.scalar 1 .str name, ofJson j) :: ofFields fields

end

end Node

end EventTally.Yaml
