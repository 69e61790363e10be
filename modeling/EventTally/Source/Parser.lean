import EventTally.Decimal.Reading
import EventTally.Source.Excerpt
import EventTally.Source.Expr
import EventTally.Source.Token

/-! # Parsing

Source text is read by a machine that takes one token at a time. It keeps the brackets and quotes
that are open, innermost first, and the trees that are complete. A text parses if every token is
accepted and nothing is open at its end.
-/

namespace EventTally

/-- A named source text. -/
structure Source where
  name : String
  code : String
  deriving DecidableEq, Repr, Inhabited

inductive ParseFault where
  | unrecognized (text : String) (unterminated : Bool)
  | endOfInput
  | intOutOfRange
  | floatOutOfRange
  | straySpread
  | unexpected (text : String)
  | wrongCloser (text expected : String)
  | nothingToSpread
  | noExpression
  | trailing (text : String)
  deriving DecidableEq, Repr, Inhabited

namespace ParseFault

def message : ParseFault → String
  | .unrecognized text _ => "unrecognized text " ++ Text.mention text
  | .endOfInput => "unexpected end of input"
  | .intOutOfRange => "integer literal out of range"
  | .floatOutOfRange => "float literal out of range"
  | .straySpread => "spread outside of collection literal"
  | .unexpected text => "unexpected " ++ Text.mention text
  | .wrongCloser text expected =>
    "unexpected " ++ Text.mention text ++ ", should be " ++ Text.mention expected
  | .nothingToSpread => "nothing to spread"
  | .noExpression => "expected an expression"
  | .trailing text => "unexpected " ++ Text.mention text ++ " after expression"

/-- The text ended too early, so more text could make it valid. -/
def isPartial : ParseFault → Bool
  | .unrecognized _ unterminated => unterminated
  | .endOfInput => true
  | _ => false

end ParseFault

structure LocatedFault where
  fault : ParseFault
  span : Span
  deriving DecidableEq, Repr, Inhabited

/-- A parse error of a named source. -/
structure ParseError where
  source : Source
  fault : ParseFault
  span : Span
  deriving DecidableEq, Repr, Inhabited

namespace ParseError

def isPartial (e : ParseError) : Bool := e.fault.isPartial

def diagnostic (e : ParseError) : Diagnostic :=
  { topic := "parse error", message := e.fault.message,
    excerpt := { name := e.source.name, source := e.source.code, start := e.span.start,
                 stop := e.span.stop } }

def text (e : ParseError) : String := e.diagnostic.text

def render (e : ParseError) (indent : String) : String := e.diagnostic.render indent

end ParseError

/-- An element of a collection literal. -/
structure Item where
  expr : Expr
  spread : Bool
  deriving Inhabited

namespace Bracket

def openerKind : Bracket → TokenKind
  | .list => .openBracket
  | .tuple => .openBrace
  | .dict => .openHashBrace
  | .set => .openHashBracket

def closerKind : Bracket → TokenKind
  | .list => .closeBracket
  | .tuple => .closeBrace
  | .dict => .closeBrace
  | .set => .closeBracket

/-- A run of plain elements as a chunk, nothing if the run is empty. -/
def chunk (b : Bracket) (run : List Expr) : List Expr :=
  if run.isEmpty then [] else [Expr.tagged b.tag run]

/-- The children of a literal with spreads: the runs of plain elements as chunks, the spread
expressions as they are. `run` is the run so far. The flag tells whether there was a spread. -/
def children (b : Bracket) (run : List Expr) : List Item → List Expr × Bool
  | [] => (b.chunk run, false)
  | ⟨e, false⟩ :: items => b.children (run ++ [e]) items
  | ⟨e, true⟩ :: items =>
    match e.untag? b.tag with
    | some elems => b.children (run ++ elems) items
    | none => (b.chunk run ++ e :: (b.children [] items).1, true)

/-- The plain elements of a literal whose spreads are all merged. -/
def merged (b : Bracket) : List Item → List Expr
  | [] => []
  | ⟨e, false⟩ :: items => e :: b.merged items
  | ⟨e, true⟩ :: items => (e.untag? b.tag).getD [] ++ b.merged items

/-- The tree of a collection literal. Without spreads it is `(kind e…)`. A spread literal of the
same kind is merged; if any other spread remains the tree is `(into_kind …)`. -/
def desugar (b : Bracket) (items : List Item) : Expr :=
  match b.children [] items with
  | (children, true) => Expr.tagged b.intoTag children
  | (_, false) => Expr.tagged b.tag (b.merged items)

end Bracket

/-- Something that is open: a form or literal with its elements so far, last first, or a quote
sign. An open literal remembers a spread sign that waits for its expression. -/
inductive Frame where
  | form (done : List Expr)
  | literal (bracket : Bracket) (done : List Item) (pending : Option Span)
  | quote
  | pin
  deriving Inhabited

/-- What has been read: the open frames, innermost first, and the complete trees, last first. -/
structure Reading where
  frames : List Frame
  trees : List Expr
  deriving Inhabited

namespace Reading

def start : Reading := { frames := [], trees := [] }

/-- Adds a complete tree, which may complete quotes around it. -/
def push (e : Expr) : List Frame → List Expr → Reading
  | [], trees => { frames := [], trees := e :: trees }
  | .form done :: frames, trees => { frames := .form (e :: done) :: frames, trees }
  | .literal b done pending :: frames, trees =>
    { frames := .literal b (⟨e, pending.isSome⟩ :: done) none :: frames, trees }
  | .quote :: frames, trees => push e.quoted frames trees
  | .pin :: frames, trees => push e.pinned frames trees

def add (r : Reading) (e : Expr) : Reading := push e r.frames r.trees

def enter (r : Reading) (f : Frame) : Reading := { r with frames := f :: r.frames }

def close (r : Reading) (t : Token) : Except LocatedFault Reading :=
  match r.frames with
  | .form done :: frames =>
    if t.kind = .closeParen then .ok (push (.form done.reverse) frames r.trees)
    else .error ⟨.wrongCloser t.text ")", t.span⟩
  | .literal _ _ (some span) :: _ => .error ⟨.nothingToSpread, span⟩
  | .literal b done none :: frames =>
    if t.kind = b.closerKind then .ok (push (b.desugar done.reverse) frames r.trees)
    else .error ⟨.wrongCloser t.text b.closer, t.span⟩
  | _ => .error ⟨.unexpected t.text, t.span⟩

/-- Meets a spread sign. -/
def spread (r : Reading) (t : Token) : Except LocatedFault Reading :=
  match r.frames with
  | .literal b done none :: frames =>
    .ok { r with frames := .literal b done (some t.span) :: frames }
  | _ => .error ⟨.straySpread, t.span⟩

def symbolAtom (text : String) : Atom :=
  if text = "null" then .null
  else if text = "true" then .bool true
  else if text = "false" then .bool false
  else .sym text

def stringAtom (text : String) : Atom :=
  .str (String.ofList (Text.unescape (text.toList.drop 1).dropLast))

/-- Takes one token. -/
def step (r : Reading) (t : Token) : Except LocatedFault Reading :=
  match t.kind with
  | .error => .error ⟨.unrecognized t.text t.unterminated, t.span⟩
  | .eof => if r.frames.isEmpty then .ok r else .error ⟨.endOfInput, t.span⟩
  | .int =>
    match Decimal.readInt64? t.text.toList with
    | some i => .ok (r.add (.atom (.int i)))
    | none => .error ⟨.intOutOfRange, t.span⟩
  | .float =>
    match Decimal.readPlain? t.text.toList with
    | some f => .ok (r.add (.atom (.float f)))
    | none => .error ⟨.floatOutOfRange, t.span⟩
  | .symbol => .ok (r.add (.atom (symbolAtom t.text)))
  | .string => .ok (r.add (.atom (stringAtom t.text)))
  | .openParen => .ok (r.enter (.form []))
  | .openBracket => .ok (r.enter (.literal .list [] none))
  | .openBrace => .ok (r.enter (.literal .tuple [] none))
  | .openHashBrace => .ok (r.enter (.literal .dict [] none))
  | .openHashBracket => .ok (r.enter (.literal .set [] none))
  | .quote => .ok (r.enter .quote)
  | .pin => .ok (r.enter .pin)
  | .spread => r.spread t
  | .closeParen | .closeBracket | .closeBrace => r.close t
  | .blank | .comment => .ok r

/-- Takes tokens until one is refused. -/
def run (r : Reading) : List Token → Reading × Option LocatedFault
  | [] => (r, none)
  | t :: ts =>
    match r.step t with
    | .ok r' => r'.run ts
    | .error fault => (r, some fault)

/-- Takes tokens until a tree is complete; the token after it must be the end. -/
def runOne (r : Reading) : List Token → Except LocatedFault Expr
  | [] => .error ⟨.noExpression, ⟨0, 0⟩⟩
  | t :: ts =>
    match r.trees with
    | e :: _ => if t.kind = .eof then .ok e else .error ⟨.trailing t.text, t.span⟩
    | [] =>
      if t.kind = .eof && r.frames.isEmpty then .error ⟨.noExpression, t.span⟩
      else
        match r.step t with
        | .ok r' => r'.runOne ts
        | .error fault => .error fault

end Reading

/-- The outcome of parsing: the complete trees before an error, and the error if there is one. -/
structure Parsed where
  trees : List Expr
  error : Option ParseError
  deriving Inhabited

namespace Source

def locate (src : Source) (f : LocatedFault) : ParseError :=
  { source := src, fault := f.fault, span := f.span }

/-- Parses all expressions of a text. -/
def parse (src : Source) : Parsed :=
  let (r, fault) := Reading.start.run (Token.tokenize src.code)
  { trees := r.trees.reverse, error := fault.map src.locate }

/-- The expressions of a text, or why it does not parse. -/
def parse? (src : Source) : Except ParseError (List Expr) :=
  match src.parse with
  | { trees, error := none } => .ok trees
  | { error := some e, .. } => .error e

/-- Parses a text that holds exactly one expression. -/
def parseOne (src : Source) : Except ParseError Expr :=
  match Reading.start.runOne (Token.tokenize src.code) with
  | .ok e => .ok e
  | .error fault => .error (src.locate fault)

end Source

end EventTally
