import EventTally.Json

/-! # Why a text is not JSON

A machine that takes one character at a time tells where the first value of a text goes wrong and
what was being read there.
-/

namespace EventTally.Json

inductive Problem where
  /-- A byte that does not fit, and what it does not fit. -/
  | unexpected (byte : Nat) (place : String)
  /-- The text ends inside of a value. -/
  | truncated
  /-- There is no value at all. -/
  | empty
  | tooDeep
  deriving DecidableEq, Repr, Inhabited

def quoteByte (n : Nat) : String :=
  if n = 0x27 then "'\\''"
  else if n = 0x22 then "'\"'"
  else
    let inner := ((Text.mention (String.singleton (Char.ofNat n))).toList.drop 1).dropLast
    "'" ++ String.ofList inner ++ "'"

def Problem.message : Problem → String
  | .unexpected byte place => "invalid character " ++ quoteByte byte ++ " " ++ place
  | .truncated => "unexpected EOF"
  | .empty => "EOF"
  | .tooDeep => "exceeded max depth"

inductive Around where
  | objectKey
  | objectValue
  | arrayElement
  deriving DecidableEq, Repr, Inhabited

inductive Stage where
  | value
  /-- A value or the end of an empty array. -/
  | firstElement
  | key
  /-- A key or the end of an empty object. -/
  | firstKey
  /-- Something that goes on after a value. -/
  | afterValue
  | string
  | escape
  /-- So many more digits of a code unit. -/
  | unit (digits : Nat)
  | minus
  | zero
  | whole
  | point
  | places
  | mark
  | sign
  | power
  /-- The rest of a word that is spelled out. -/
  | word (whole : String) (rest : List Char)
  deriving DecidableEq, Repr, Inhabited

/-- What a character leads to. -/
inductive Step where
  | next (stage : Stage) (around : List Around)
  | done
  | stop (p : Problem)
  deriving DecidableEq, Repr, Inhabited

def firstByte (c : Char) : Nat :=
  let n := c.toNat
  if n < 0x80 then n
  else if n < 0x800 then 0xC0 + n / 0x40
  else if n < 0x10000 then 0xE0 + n / 0x1000
  else 0xF0 + n / 0x40000

def misplaced (c : Char) (place : String) : Step := .stop (.unexpected (firstByte c) place)

def openStep (stage : Stage) (a : Around) (around : List Around) : Step :=
  if around.length < maxDepth then .next stage (a :: around) else .stop .tooDeep

def valueStep (around : List Around) (c : Char) : Step :=
  if isSpace c then .next .value around
  else
    match c with
    | '\x7b' => openStep .firstKey .objectKey around
    | '[' => openStep .firstElement .arrayElement around
    | '"' => .next .string around
    | '-' => .next .minus around
    | '0' => .next .zero around
    | 't' => .next (.word "true" ['r', 'u', 'e']) around
    | 'f' => .next (.word "false" ['a', 'l', 's', 'e']) around
    | 'n' => .next (.word "null" ['u', 'l', 'l']) around
    | c => if isDigit c then .next .whole around else misplaced c "looking for beginning of value"

def close : List Around → Step
  | [] => .done
  | around => .next .afterValue around

def afterStep (around : List Around) (c : Char) : Step :=
  match around with
  | [] => .done
  | a :: rest =>
    if isSpace c then .next .afterValue around
    else
      match a with
      | .objectKey =>
        if c = ':' then .next .value (.objectValue :: rest) else misplaced c "after object key"
      | .objectValue =>
        if c = ',' then .next .key (.objectKey :: rest)
        else if c = '\x7d' then close rest
        else misplaced c "after object key:value pair"
      | .arrayElement =>
        if c = ',' then .next .value around
        else if c = ']' then close rest
        else misplaced c "after array element"

def keyStep (around : List Around) (c : Char) : Step :=
  if isSpace c then .next .key around
  else if c = '"' then .next .string around
  else misplaced c "looking for beginning of object key string"

def isMark (c : Char) : Bool := c = 'e' || c = 'E'

/-- Takes one character. -/
def step (around : List Around) (c : Char) : Stage → Step
  | .value => valueStep around c
  | .firstElement =>
    if isSpace c then .next .firstElement around
    else if c = ']' then close around.tail
    else valueStep around c
  | .key => keyStep around c
  | .firstKey =>
    if isSpace c then .next .firstKey around
    else if c = '\x7d' then close around.tail
    else keyStep around c
  | .afterValue => afterStep around c
  | .string =>
    if c = '"' then .next .afterValue around
    else if c = '\\' then .next .escape around
    else if c.toNat < 0x20 then misplaced c "in string literal"
    else .next .string around
  | .escape =>
    if c = 'u' then .next (.unit 4) around
    else if (shortEscape? c).isSome then .next .string around
    else misplaced c "in string escape code"
  | .unit n =>
    if (hexValue? c).isSome then .next (if n ≤ 1 then .string else .unit (n - 1)) around
    else misplaced c "in \\u hexadecimal character escape"
  | .minus =>
    if c = '0' then .next .zero around
    else if isDigit c then .next .whole around
    else misplaced c "in numeric literal"
  | .zero =>
    if c = '.' then .next .point around
    else if isMark c then .next .mark around
    else afterStep around c
  | .whole =>
    if isDigit c then .next .whole around
    else if c = '.' then .next .point around
    else if isMark c then .next .mark around
    else afterStep around c
  | .point =>
    if isDigit c then .next .places around
    else misplaced c "after decimal point in numeric literal"
  | .places =>
    if isDigit c then .next .places around
    else if isMark c then .next .mark around
    else afterStep around c
  | .mark =>
    if c = '+' || c = '-' then .next .sign around
    else if isDigit c then .next .power around
    else misplaced c "in exponent of numeric literal"
  | .sign =>
    if isDigit c then .next .power around else misplaced c "in exponent of numeric literal"
  | .power => if isDigit c then .next .power around else afterStep around c
  | .word _ [] => afterStep around c
  | .word whole (w :: ws) =>
    if c = w then .next (.word whole ws) around
    else
      misplaced c ("in literal " ++ whole ++ " (expecting " ++ quoteByte w.toNat ++ ")")

/-- Goes through a text; `blank` tells that nothing but space has been met. -/
def runProblem (stage : Stage) (around : List Around) (blank : Bool) :
    List Char → Option Problem
  | [] =>
    if step around ' ' stage = .done then none
    else some (if blank then .empty else .truncated)
  | c :: cs =>
    match step around c stage with
    | .next stage around => runProblem stage around (blank && isSpace c) cs
    | .done => none
    | .stop p => some p

/-- What is wrong with the first value of a text. -/
def problem? (cs : List Char) : Option Problem := runProblem .value [] true cs

end EventTally.Json
