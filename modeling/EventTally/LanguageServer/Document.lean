import EventTally.Doc
import EventTally.LanguageServer.Position
import EventTally.Source.Parser

/-! # What the language server knows of a document

Its error, the symbol at a place and what is known of it, and the names that can stand there.
-/

namespace EventTally.LanguageServer

structure Range where
  start : Position
  stop : Position
  deriving DecidableEq, Repr, Inhabited

def Range.ofSpan (text : String) (s : Span) : Range :=
  { start := .ofOffset text s.start, stop := .ofOffset text s.stop }

/-- The parse error of a document, if it has one. -/
def problem? (uri text : String) : Option (Range × String) :=
  match Source.parse? { name := uri, code := text } with
  | .ok _ => none
  | .error e => some (Range.ofSpan text e.span, e.fault.message)

def symbolAt (text : String) (offset : Nat) : Option Token :=
  ((Token.tokenize text).takeWhile fun t => t.span.start ≤ offset).find? fun t =>
    t.kind = .symbol && offset ≤ t.span.stop

/-- What is known of the symbol at an offset, and where it is. -/
def describe? (text : String) (offset : Nat) : Option (String × Range) := do
  let t ← symbolAt text offset
  let doc ← Builtin.docOf? t.text
  return (doc, Range.ofSpan text t.span)

mutual

def patternNames : Expr → List String
  | .atom (.sym name) => [name]
  | .atom _ => []
  | .form [] => []
  | .form (.atom (.sym _) :: rest) => patternNamesAll rest
  | .form (e :: rest) => patternNames e ++ patternNamesAll rest

def patternNamesAll : List Expr → List String
  | [] => []
  | e :: es => patternNames e ++ patternNamesAll es

end

def ownNames : List Expr → List String
  | .atom (.sym "def") :: pattern :: _ => patternNames pattern
  | .atom (.sym "defn") :: .atom (.sym name) :: _ => [name]
  | _ => []

mutual

def definedIn : Expr → List String
  | .atom _ => []
  | .form elems => ownNames elems ++ definedInAll elems

def definedInAll : List Expr → List String
  | [] => []
  | e :: es => definedIn e ++ definedInAll es

end

def definedNames (text : String) : List String :=
  definedInAll (Source.parse { name := "[completion]", code := text }).trees

structure Candidate where
  name : String
  isFunction : Bool
  doc : String
  deriving DecidableEq, Repr, Inhabited

def globalNames : List String := "get_tally" :: Builtin.names

def candidates (text : String) : List Candidate :=
  let own := ((definedNames text).filter (!globalNames.contains ·)).eraseDups
  let all := globalNames.map (·, true) ++ own.map (·, false)
  (all.mergeSort (·.1 ≤ ·.1)).map fun (name, isFunction) =>
    { name, isFunction, doc := (Builtin.docOf? name).getD "" }

/-- The names that complete what stands before an offset, and the part they replace. -/
def completions (text : String) (offset : Nat) : List Candidate × Range :=
  let span : Span :=
    match symbolAt text offset with
    | some t => if t.span.stop = offset then t.span else { start := offset, stop := offset }
    | none => { start := offset, stop := offset }
  let typed := String.ofList (Text.cut text.toList span.start offset)
  ((candidates text).filter fun c => typed.isPrefixOf c.name, Range.ofSpan text span)

end EventTally.LanguageServer
