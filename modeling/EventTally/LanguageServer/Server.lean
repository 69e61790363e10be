import EventTally.Json
import EventTally.Keyed
import EventTally.Log
import EventTally.LanguageServer.Document

/-! # The language server

The server keeps the text of open documents and answers requests. After a document was opened or
changed it has to publish what it found in it.
-/

namespace EventTally.LanguageServer

structure Server where
  documents : List (String × String)
  deriving DecidableEq, Repr, Inhabited

inductive Request where
  | handshake
  /-- Something that needs no answer. -/
  | nothing
  | didOpen (uri text : String)
  | didChange (uri text : String)
  | didClose (uri : String)
  | hover (uri : String) (p : Position)
  | completion (uri : String) (p : Position)
  | exit
  deriving DecidableEq, Repr, Inhabited

inductive RequestFault where
  | methodNotFound
  | invalidParams
  deriving DecidableEq, Repr, Inhabited

def RequestFault.code : RequestFault → Int
  | .methodNotFound => -32601
  | .invalidParams => -32602

def RequestFault.message : RequestFault → String
  | .methodNotFound => "method not found"
  | .invalidParams => "invalid params"

/-- The value of a field, whose name may be in any case; null if there is none. -/
def member (name : String) : Json → Option Json
  | .obj fields => some (((fields.reverse.find? (·.1.toLower == name.toLower)).map (·.2)).getD .null)
  | .null => some .null
  | _ => none

def textOf : Json → Option String
  | .null => some ""
  | .str s => some s
  | _ => none

def integerOf : Json → Option Int
  | .null => some 0
  | .num t =>
    let cs := t.toList
    if cs.any fun c => c = '.' || c = 'e' || c = 'E' then none
    else (Decimal.readInt64? cs).map (·.toInt)
  | _ => none

def countOf (j : Json) : Option Int := (integerOf j).bind fun n => if n < 0 then none else some n

def positionOf (j : Json) : Option Position := do
  return { line := ← integerOf (← member "line" j)
           character := ← integerOf (← member "character" j) }

def uriOf (j : Json) : Option String := do
  textOf (← member "uri" j)

/-- A document that is opened: its address and text. Its other fields must have the right form. -/
def itemOf (j : Json) : Option (String × String) := do
  let _ ← textOf (← member "languageId" j)
  let _ ← integerOf (← member "version" j)
  return (← uriOf j, ← textOf (← member "text" j))

def changeOf (j : Json) : Option String := do
  match ← member "range" j with
  | .null => pure ()
  | range =>
    let _ ← positionOf (← member "start" range)
    let _ ← positionOf (← member "end" range)
  let _ ← countOf (← member "rangeLength" j)
  textOf (← member "text" j)

/-- The first of the changes to a document; there must be one. -/
def changesOf : Json → Option String
  | .arr (c :: cs) => do
    let text ← changeOf c
    let _ ← cs.mapM changeOf
    return text
  | _ => none

def placeOf (params : Json) : Option (String × Position) := do
  return (← uriOf (← member "textDocument" params), ← positionOf (← member "position" params))

def didOpenOf (params : Json) : Option Request := do
  let (uri, text) ← itemOf (← member "textDocument" params)
  return .didOpen uri text

def didChangeOf (params : Json) : Option Request := do
  let document ← member "textDocument" params
  let _ ← integerOf (← member "version" document)
  return .didChange (← uriOf document) (← changesOf (← member "contentChanges" params))

def didCloseOf (params : Json) : Option Request := do
  return .didClose (← uriOf (← member "textDocument" params))

def hoverOf (params : Json) : Option Request := do
  let (uri, p) ← placeOf params
  return .hover uri p

def completionOf (params : Json) : Option Request := do
  let context ← member "context" params
  let _ ← integerOf (← member "triggerKind" context)
  let _ ← textOf (← member "triggerCharacter" context)
  let (uri, p) ← placeOf params
  return .completion uri p

def Request.of (method : String) (params : Option Json) : Except RequestFault Request :=
  let read := fun (f : Json → Option Request) =>
    match params.bind f with
    | some r => .ok r
    | none => .error .invalidParams
  match method with
  | "initialize" => .ok .handshake
  | "initialized" | "shutdown" | "workspace/didChangeWatchedFiles" => .ok .nothing
  | "exit" => .ok .exit
  | "textDocument/didOpen" => read didOpenOf
  | "textDocument/didChange" => read didChangeOf
  | "textDocument/didClose" => read didCloseOf
  | "textDocument/hover" => read hoverOf
  | "textDocument/completion" => read completionOf
  | _ => .error .methodNotFound

def numberJson (i : Int) : Json := .num (toString i)

def positionJson (p : Position) : Json :=
  .obj [("line", numberJson p.line), ("character", numberJson p.character)]

def rangeJson (r : Range) : Json :=
  .obj [("start", positionJson r.start), ("end", positionJson r.stop)]

def capabilities : Json :=
  .obj [("capabilities", .obj [
    ("textDocumentSync", .obj [("openClose", .bool true), ("change", numberJson 1)]),
    ("hoverProvider", .bool true),
    ("completionProvider", .obj [])])]

/-- What an editor shows for a candidate; functions and variables have their numbers. -/
def itemJson (r : Range) (c : Candidate) : Json :=
  .obj ([("label", .str c.name), ("kind", numberJson (if c.isFunction then 3 else 6))]
    ++ (if c.doc = "" then [] else [("detail", .str c.doc)])
    ++ [("textEdit", .obj [("range", rangeJson r), ("newText", .str c.name)])])

def hoverJson : Option (String × Range) → Json
  | none => .obj [("contents", .arr [])]
  | some (doc, r) => .obj [("contents", .arr [.str doc]), ("range", rangeJson r)]

structure Publication where
  uri : String
  problem : Option (Range × String)
  deriving DecidableEq, Repr, Inhabited

def Publication.json (p : Publication) : Json :=
  let diagnostics := p.problem.toList.map fun (r, message) =>
    .obj [("range", rangeJson r), ("severity", numberJson 1), ("source", .str "parse"),
      ("message", .str message)]
  .obj [("uri", .str p.uri), ("diagnostics", .arr diagnostics)]

namespace Server

def initial : Server := { documents := [] }

/-- The text of a document, empty if it is not open. -/
def text (s : Server) (uri : String) : String :=
  (Keyed.find? (· == uri) s.documents).getD ""

def setText (s : Server) (uri text : String) : Server :=
  { s with documents := Keyed.insert (· == uri) uri text s.documents }

def forget (s : Server) (uri : String) : Server :=
  { s with documents := Keyed.erase (· == uri) s.documents }

/-- The result of a request, what is to be published after it, and the server then. -/
structure Outcome where
  result : Json
  publication : Option Publication
  server : Server
  deriving Inhabited

def answer (s : Server) : Request → Outcome
  | .handshake => { result := capabilities, publication := none, server := s }
  | .nothing | .exit => { result := .null, publication := none, server := s }
  | .didOpen uri text | .didChange uri text =>
    { result := .null
      publication := some { uri, problem := problem? uri text }
      server := s.setText uri text }
  | .didClose uri => { result := .null, publication := none, server := s.forget uri }
  | .hover uri p =>
    let text := s.text uri
    { result := hoverJson (describe? text (p.toOffset text)), publication := none, server := s }
  | .completion uri p =>
    let text := s.text uri
    let (items, range) := completions text (p.toOffset text)
    { result := .arr (items.map (itemJson range)), publication := none, server := s }

end Server

end EventTally.LanguageServer
