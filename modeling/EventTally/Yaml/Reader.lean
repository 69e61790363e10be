import EventTally.Text.Bytes
import EventTally.Yaml.Scalar

/-! # Reading YAML

The first document of a text as a tree. Collections are written in blocks, by indentation, or in
flow, by brackets; scalars are plain, quoted, or blocks of text. A document without content is
absent.
-/

namespace EventTally.Yaml

/-- Why a text is not read, and the line that is named with it. -/
structure Fault where
  line : Option Nat
  problem : String
  deriving DecidableEq, Repr, Inhabited

namespace Fault

def message (f : Fault) : String :=
  "yaml: " ++ (match f.line with
    | some n => "line " ++ toString n ++ ": "
    | none => "") ++ f.problem

/-- A problem with the characters at a line counted from 0. The first line is not named. -/
def atText (line : Nat) (problem : String) : Fault :=
  { line := if line = 0 then none else some (line + 1), problem }

/-- A problem with the structure, found at line `found` in what started at line `start`. -/
def atNode (start found : Nat) (problem : String) : Fault :=
  let line := if start = 0 then found else start
  { line := if line = 0 then none else some line, problem }

end Fault

/-- A position in a text: line and column, from 0, and what follows. -/
structure Cursor where
  line : Nat
  column : Nat
  rest : List Char
  deriving Inhabited

namespace Cursor

def next (c : Cursor) : Cursor :=
  match c.rest with
  | [] => c
  | '\n' :: rest => { line := c.line + 1, column := 0, rest }
  | _ :: rest => { line := c.line, column := c.column + 1, rest }

def skip : Nat → Cursor → Cursor
  | 0, c => c
  | n + 1, c => skip n c.next

def head? (c : Cursor) : Option Char := c.rest.head?

def atEnd (c : Cursor) : Bool := c.rest.isEmpty

def skipWhile (p : Char → Bool) (c : Cursor) : Cursor := c.skip (c.rest.takeWhile p).length

def skipSpaces (c : Cursor) : Cursor := c.skipWhile isSpace

/-- Whether nothing but a comment follows on the line; a comment needs a space before it, which
`spaced` tells. -/
def atLineEnd (spaced : Bool) (c : Cursor) : Bool :=
  match c.head? with
  | none | some '\n' => true
  | some '#' => spaced
  | _ => false

/-- Moves over spaces, line ends and comments to the next text. Tabs do not indent, so outside of
brackets they are not skipped at the start of a line. -/
def skipBlank (flow : Bool) : Nat → Bool → Cursor → Cursor
  | 0, _, c => c
  | fuel + 1, spaced, c =>
    match c.head? with
    | some ' ' => skipBlank flow fuel true c.next
    | some '\t' => if flow || !spaced then skipBlank flow fuel spaced c.next else c
    | some '\n' => skipBlank flow fuel true c.next
    | some '#' => if spaced then skipBlank flow fuel true (c.skipWhile (· != '\n')) else c
    | _ => c

def toText (flow : Bool) (c : Cursor) : Cursor := c.skipBlank flow (c.rest.length + 1) true

/-- Whether an indicator is followed by a space, a line end or the end. -/
def indicates (mark : Char) (c : Cursor) : Bool :=
  match c.rest with
  | [m] => m = mark
  | m :: d :: _ => m = mark && isSpaceOrBreak d
  | [] => false

end Cursor

def startsPlain (flow : Bool) (cs : List Char) : Bool :=
  let blankNext := fun (d : Option Char) => (d.map isSpaceOrBreak).getD true
  match cs with
  | [] => false
  | c :: rest =>
    if c = '-' then !blankNext rest.head?
    else if c = '?' || c = ':' then !flow && !blankNext rest.head?
    else !isSpaceOrBreak c && !",[]\x7b\x7d#&*!|>'\"%@`".toList.contains c

def endsPlain (flow : Bool) (cs : List Char) : Bool :=
  match cs with
  | [] => true
  | ':' :: rest => (rest.head?.map isSpaceOrBreak).getD true
  | c :: _ => c = '\n' || (flow && ",[]\x7b\x7d".toList.contains c)

def plainLine (flow : Bool) : List Char → List Char
  | [] => []
  | c :: cs =>
    if endsPlain flow (c :: cs) then []
    else if isSpace c && cs.head? == some '#' then []
    else c :: plainLine flow cs

/-- The lines of a plain scalar after the first: `indent` is the least column they may have. Empty
lines count only if text follows. -/
def plainMore (flow : Bool) (indent : Nat) : Nat → List (List Char) → Cursor →
    List (List Char) × Cursor
  | 0, lines, c => (lines, c)
  | fuel + 1, lines, c =>
    let ahead := c.skipWhile isSpaceOrBreak
    let emptyLines := ahead.line - c.line - 1
    if ahead.line = c.line || ahead.atEnd || (!flow && ahead.column < indent)
        || ahead.head? == some '#' || endsPlain flow ahead.rest then (lines, c)
    else
      let text := plainLine flow ahead.rest
      let stop := ahead.skip text.length
      let lines := lines ++ List.replicate emptyLines [] ++ [trimRight text]
      plainMore flow indent fuel lines stop

def readPlain (flow : Bool) (indent : Nat) (c : Cursor) : Node × Cursor :=
  let first := plainLine flow c.rest
  let (lines, stop) :=
    plainMore flow indent c.rest.length [trimRight first] (c.skip first.length)
  let text := String.ofList (foldLines lines)
  (.scalar (c.line + 1) (Tag.ofPlain text) text, stop)

/-- Line ends and the spaces around them inside quotes, folded. -/
def foldedBreak (c : Cursor) : List Char × Cursor :=
  let ahead := c.skipWhile isSpaceOrBreak
  let breaks := ahead.line - c.line
  if breaks = 0 then (c.rest.takeWhile isSpaceOrBreak, ahead)
  else if breaks = 1 then ([' '], ahead)
  else (List.replicate (breaks - 1) '\n', ahead)

/-- The inside of single quotes, where a doubled quote is one quote. -/
def readSingle (start : Nat) : Nat → Cursor → Except Fault (List Char × Cursor)
  | 0, c => .ok ([], c)
  | fuel + 1, c =>
    match c.rest with
    | [] => .error (.atText start "found unexpected end of stream")
    | '\x27' :: '\x27' :: _ => do
      let (text, stop) ← readSingle start fuel (c.skip 2)
      return ('\x27' :: text, stop)
    | '\x27' :: _ => .ok ([], c.next)
    | d :: _ =>
      if isSpaceOrBreak d then do
        let (gap, ahead) := foldedBreak c
        let (text, stop) ← readSingle start fuel ahead
        return (gap ++ text, stop)
      else do
        let (text, stop) ← readSingle start fuel c.next
        return (d :: text, stop)

/-- A character given by its number, at the cursor after the escape. -/
def readNumbered (start : Nat) (width : Nat) (c : Cursor) : Except Fault (Char × Cursor) :=
  match hexNumber? (c.rest.take width) with
  | some n =>
    if (c.rest.take width).length < width then
      .error (.atText start "did not find expected hexdecimal number")
    else if (0xD800 ≤ n && n ≤ 0xDFFF) || 0x10FFFF < n then
      .error (.atText start "found invalid Unicode character escape code")
    else .ok (Char.ofNat n, c.skip width)
  | none => .error (.atText start "did not find expected hexdecimal number")

def readDouble (start : Nat) : Nat → Cursor → Except Fault (List Char × Cursor)
  | 0, c => .ok ([], c)
  | fuel + 1, c =>
    match c.rest with
    | [] => .error (.atText start "found unexpected end of stream")
    | '"' :: _ => .ok ([], c.next)
    | '\\' :: '\n' :: _ => readDouble start fuel ((c.skip 2).skipWhile isSpaceOrBreak)
    | '\\' :: e :: _ =>
      match escaped? e, escapeWidth? e with
      | some d, _ => do
        let (text, stop) ← readDouble start fuel (c.skip 2)
        return (d :: text, stop)
      | none, some width => do
        let (d, after) ← readNumbered start width (c.skip 2)
        let (text, stop) ← readDouble start fuel after
        return (d :: text, stop)
      | none, none => .error (.atText start "found unknown escape character")
    | d :: _ =>
      if isSpaceOrBreak d then do
        let (gap, ahead) := foldedBreak c
        let (text, stop) ← readDouble start fuel ahead
        return (gap ++ text, stop)
      else do
        let (text, stop) ← readDouble start fuel c.next
        return (d :: text, stop)

def readQuoted (c : Cursor) : Except Fault (Node × Cursor) := do
  let read := if c.head? == some '"' then readDouble else readSingle
  let (text, stop) ← read c.line (c.rest.length + 1) c.next
  return (.scalar (c.line + 1) .str (String.ofList text), stop)

/-- The indicators after the mark of a block: how line ends are chomped and an indentation. -/
def blockHeader : Nat → Chomp → Option Nat → List Char → Chomp × Option Nat
  | 0, chomp, indent, _ => (chomp, indent)
  | fuel + 1, chomp, indent, cs =>
    match cs with
    | '+' :: rest => blockHeader fuel .keep indent rest
    | '-' :: rest => blockHeader fuel .strip indent rest
    | d :: rest =>
      if Json.isDigit d then blockHeader fuel chomp (some (Decimal.digitValue d)) rest
      else (chomp, indent)
    | [] => (chomp, indent)

def indentOf (line : List Char) : Nat := (line.takeWhile (· = ' ')).length

def isBlankLine (line : List Char) : Bool := line.all (· = ' ')

/-- The lines of a text, without an empty one after its last line end. -/
def linesOf (cs : List Char) : List (List Char) :=
  match (Text.splitLines cs).reverse with
  | [] :: rest => rest.reverse
  | lines => lines.reverse

/-- The lines that belong to a block, with its indentation removed. -/
def blockLines (indent : Nat) : List (List Char) → List (List Char)
  | [] => []
  | line :: rest =>
    if indent ≤ indentOf line then line.drop indent :: blockLines indent rest
    else if isBlankLine line then [] :: blockLines indent rest
    else []

/-- A block of text whose parent has indentation `parent`, at least 0. -/
def readBlock (parent : Nat) (c : Cursor) : Node × Cursor :=
  let header := c.next.rest.takeWhile (· != '\n')
  let (chomp, given) := blockHeader 2 .clip none header
  let body := c.skipWhile (· != '\n') |>.next
  let lines := linesOf body.rest
  let detected := ((lines.dropWhile isBlankLine).head?.map indentOf).getD parent
  let indent := (given.map (parent + ·)).getD (max detected (parent + 1))
  let mine := blockLines indent lines
  let text := String.ofList (blockText (c.head? == some '>') chomp mine)
  let size := (lines.take mine.length).foldl (fun n l => n + l.length + 1) 0
  (.scalar (c.line + 1) .str text, body.skip (min size body.rest.length))

mutual

def readFlow : Nat → Cursor → Except Fault (Node × Cursor)
  | 0, c => .ok (.absent (c.line + 1), c)
  | fuel + 1, c =>
    match c.head? with
    | some '[' => do
      let (elems, stop) ← readFlowElems fuel c.line (c.next.toText true)
      return (.seq (c.line + 1) elems, stop)
    | some '\x7b' => do
      let (entries, stop) ← readFlowEntries fuel c.line (c.next.toText true)
      return (.map (c.line + 1) entries, stop)
    | some '"' | some '\x27' => readQuoted c
    | _ =>
      if startsPlain true c.rest then .ok (readPlain true 0 c)
      else if c.head? == some ':' || c.head? == some ',' || c.head? == some ']'
          || c.head? == some '\x7d' then .ok (.absent (c.line + 1), c)
      else .error (.atText c.line "found character that cannot start any token")

def readFlowValue : Nat → Cursor → Except Fault (Option Node × Cursor)
  | 0, c => .ok (none, c)
  | fuel + 1, c =>
    match c.head? with
    | some ':' => do
      let (value, stop) ← readFlow fuel (c.next.toText true)
      return (some value, stop.toText true)
    | _ => .ok (none, c)

/-- The elements of a sequence up to its bracket. An element with a value is a mapping. -/
def readFlowElems : Nat → Nat → Cursor → Except Fault (List Node × Cursor)
  | 0, _, c => .ok ([], c)
  | fuel + 1, start, c =>
    match c.head? with
    | some ']' => .ok ([], c.next)
    | _ => do
      let (key, stop) ← readFlow fuel c
      let (value, stop) ← readFlowValue fuel (stop.toText true)
      let elem := value.elim key fun v => .map key.line [(key, v)]
      match stop.head? with
      | some ',' => do
        let (elems, stop) ← readFlowElems fuel start (stop.next.toText true)
        return (elem :: elems, stop)
      | some ']' => return ([elem], stop.next)
      | _ => .error (.atNode start stop.line "did not find expected ',' or ']'")

def readFlowEntries : Nat → Nat → Cursor → Except Fault (List (Node × Node) × Cursor)
  | 0, _, c => .ok ([], c)
  | fuel + 1, start, c =>
    match c.head? with
    | some '\x7d' => .ok ([], c.next)
    | _ => do
      let (key, stop) ← readFlow fuel c
      let (value, stop) ← readFlowValue fuel (stop.toText true)
      let entry := (key, value.getD (.absent key.line))
      match stop.head? with
      | some ',' => do
        let (entries, stop) ← readFlowEntries fuel start (stop.next.toText true)
        return (entry :: entries, stop)
      | some '\x7d' => return ([entry], stop.next)
      | _ => .error (.atNode start stop.line "did not find expected ',' or '\x7d'")

end

/-- A scalar or flow collection outside of brackets; text that goes on over lines is indented by
at least `indent`. -/
def readInline (indent : Nat) (c : Cursor) : Except Fault (Node × Cursor) :=
  match c.head? with
  | some '[' | some '\x7b' => readFlow (2 * c.rest.length + 2) c
  | some '"' | some '\x27' => readQuoted c
  | some '|' | some '>' => .ok (readBlock (indent - 1) c)
  | _ =>
    if startsPlain false c.rest then .ok (readPlain false indent c)
    else .error (.atText c.line "found character that cannot start any token")

def isKey (start stop : Cursor) : Bool :=
  start.line = stop.line && stop.skipSpaces.indicates ':'

/-- After a node nothing but a comment may follow on its line. -/
def checkRest (start : Nat) (c : Cursor) : Except Fault Unit :=
  let ahead := c.skipSpaces
  if c.column = 0 || ahead.atLineEnd (ahead.column != c.column) then .ok ()
  else if ahead.indicates ':' then
    .error (.atText ahead.line "mapping values are not allowed in this context")
  else .error (.atNode start ahead.line "did not find expected key")

mutual

/-- A node whose text starts at the cursor, with `indent` the least column of its parts. -/
def readNode : Nat → Nat → Cursor → Except Fault (Node × Cursor)
  | 0, _, c => .ok (.absent (c.line + 1), c)
  | fuel + 1, indent, c =>
    if c.indicates '-' then do
      let (elems, stop) ← readSeq fuel c.column false c
      return (.seq (c.line + 1) elems, stop)
    else do
      let (node, stop) ← readInline indent c
      if isKey c stop then do
        let (entries, stop) ← readMap fuel c.line c.column c
        return (.map (c.line + 1) entries, stop)
      else do
        checkRest c.line stop
        return (node, stop)

/-- The elements of a sequence whose dashes stand at `column`. Inside a mapping at the same
column it ends where no dash follows. -/
def readSeq : Nat → Nat → Bool → Cursor → Except Fault (List Node × Cursor)
  | 0, _, _, c => .ok ([], c)
  | fuel + 1, column, inMap, c => do
    let ahead := c.next.toText false
    let (elem, stop) ←
      if ahead.atEnd || ahead.column ≤ column then .ok (.absent (c.line + 1), ahead)
      else readNode fuel (column + 1) ahead
    let stop := stop.toText false
    if stop.atEnd || stop.column < column then return ([elem], stop)
    else if stop.column = column && stop.indicates '-' then do
      let (elems, stop) ← readSeq fuel column inMap stop
      return (elem :: elems, stop)
    else if stop.column = column && inMap then return ([elem], stop)
    else .error (.atNode c.line stop.line "did not find expected '-' indicator")

def readMap : Nat → Nat → Nat → Cursor → Except Fault (List (Node × Node) × Cursor)
  | 0, _, _, c => .ok ([], c)
  | fuel + 1, start, column, c => do
    let (key, stop) ← readInline (column + 1) c
    if !isKey c stop then .error (.atText c.line "could not find expected ':'")
    else do
      let (value, stop) ← readValue fuel column stop.skipSpaces.next
      let stop := stop.toText false
      if stop.atEnd || stop.column < column then return ([(key, value)], stop)
      else if stop.column = column && !stop.indicates '-' then do
        let (entries, stop) ← readMap fuel start column stop
        return ((key, value) :: entries, stop)
      else .error (.atNode start stop.line "did not find expected key")

def readValue : Nat → Nat → Cursor → Except Fault (Node × Cursor)
  | 0, _, c => .ok (.absent (c.line + 1), c)
  | fuel + 1, column, c => do
    let here := c.skipSpaces
    if here.atLineEnd (here.column != c.column) then
      let ahead := c.toText false
      if ahead.atEnd || ahead.column < column then return (.absent (c.line + 1), c)
      else if ahead.column = column then
        if ahead.indicates '-' then do
          let (elems, stop) ← readSeq fuel column true ahead
          return (.seq (ahead.line + 1) elems, stop)
        else return (.absent (c.line + 1), c)
      else readNode fuel (column + 1) ahead
    else if here.indicates '-' then
      .error (.atText here.line "block sequence entries are not allowed in this context")
    else do
      let (node, stop) ← readInline (column + 1) here
      if isKey here stop then
        .error (.atText stop.line "mapping values are not allowed in this context")
      else do
        checkRest here.line stop
        return (node, stop)

end

/-- Whether a line is a mark of three characters alone or followed by a space. -/
def isMark (mark : String) (line : List Char) : Bool :=
  line.take 3 == mark.toList && ((line.drop 3).head?.map isSpace).getD true

def isPreamble (line : List Char) : Bool :=
  match trimLeft line with
  | [] => true
  | '#' :: _ => true
  | _ => line.head? == some '%'

/-- The lines of the first document, with a mark at its start blanked out. -/
def firstDocument (lines : List (List Char)) : List (List Char) :=
  let before := lines.takeWhile isPreamble
  let stops := fun line => isMark "---" line || isMark "..." line
  match lines.dropWhile isPreamble with
  | [] => []
  | line :: rest =>
    let first := if isMark "---" line then ' ' :: ' ' :: ' ' :: line.drop 3 else line
    before.map (fun _ => []) ++ first :: rest.takeWhile (!stops ·)

/-- Line ends written as a carriage return and a line feed become line feeds. -/
def plainLineEnds : List Char → List Char
  | '\r' :: '\n' :: cs => '\n' :: plainLineEnds cs
  | c :: cs => c :: plainLineEnds cs
  | [] => []

def read (text : String) : Except Fault (Option Node) := do
  let lines := firstDocument (Text.splitLines (plainLineEnds text.toList))
  let start : Cursor := { line := 0, column := 0, rest := joinLiteral lines }
  let first := start.toText false
  if first.atEnd then return none
  let (node, stop) ← readNode (2 * first.rest.length + 2) 0 first
  let stop := stop.toText false
  if stop.atEnd then return some node
  else .error (.atNode stop.line stop.line "did not find expected <document start>")

end EventTally.Yaml
