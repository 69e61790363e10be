import EventTally.LanguageServer.Server
import EventTally.Program.Basic

/-! # The connection to an editor

Messages are JSON objects, each after a header with its length in bytes. Requests have an id, which
the response repeats; notifications have none and get no response.
-/

namespace EventTally.LanguageServer

open CommandLine

structure Message where
  id : Option Json
  method : String
  params : Option Json
  deriving Inhabited

def Message.ofJson? (j : Json) : Option Message :=
  match j.field? "method" with
  | some (.str method) => some { id := j.field? "id", method, params := j.field? "params" }
  | _ => none

def frame (j : Json) : String :=
  let body := j.text
  "Content-Length: " ++ toString (Text.byteLength body.toList) ++ "\r\n\r\n" ++ body

/-- The lines of a header up to the empty one, and what follows. -/
def splitHeader : Nat → List Char → Option (List String × List Char)
  | 0, _ => none
  | fuel + 1, cs =>
    if cs.contains '\n' then
      let line := Text.chopLineEnding (String.ofList (cs.takeWhile (· != '\n') ++ ['\n']))
      let rest := (cs.dropWhile (· != '\n')).drop 1
      if line = "" then some ([], rest)
      else (splitHeader fuel rest).map fun (lines, rest) => (line :: lines, rest)
    else none

def contentLength? (lines : List String) : Option Nat :=
  lines.findSome? fun line =>
    match line.splitOn ":" with
    | [name, value] =>
      if name.toLower = "content-length" then value.trimAscii.toNat? else none
    | _ => none

def splitBytes : Nat → List Char → List Char × List Char
  | 0, cs => ([], cs)
  | _, [] => ([], [])
  | n + 1, c :: cs =>
    let (front, rest) := splitBytes (n + 1 - c.utf8Size) cs
    (c :: front, rest)

def nextMessage? (cs : List Char) : Option (Message × List Char) := do
  let (lines, rest) ← splitHeader (cs.length + 1) cs
  let n ← contentLength? lines
  let (body, rest) := splitBytes n rest
  let (j, _) ← Json.readFirst body
  return (← Message.ofJson? j, rest)

def responseJson (id : Json) : Except RequestFault Json → Json
  | .ok result => .obj [("id", id), ("result", result), ("jsonrpc", .str "2.0")]
  | .error f =>
    .obj [("id", id),
      ("error", .obj [("code", numberJson f.code), ("message", .str f.message), ("data", .null)]),
      ("jsonrpc", .str "2.0")]

def publicationJson (p : Publication) : Json :=
  .obj [("method", .str "textDocument/publishDiagnostics"), ("params", p.json),
    ("jsonrpc", .str "2.0")]

structure Reaction where
  output : String
  log : List LogEntry
  server : Server
  closed : Bool

def react (s : Server) (m : Message) : Reaction :=
  let respond := fun result => (m.id.map fun id => frame (responseJson id result)).getD ""
  match Request.of m.method m.params with
  | .error f =>
    let log : List LogEntry :=
      if f = .methodNotFound then
        [{ topic := "lsp", message := "method not found: " ++ m.method }]
      else []
    { output := respond (.error f), log, server := s, closed := false }
  | .ok .exit => { output := "", log := [], server := s, closed := true }
  | .ok r =>
    let out := s.answer r
    let published := (out.publication.map fun p => frame (publicationJson p)).getD ""
    { output := respond (.ok out.result) ++ published, log := [], server := out.server,
      closed := false }

/-- Handles the messages of a text until it ends or the connection is closed. -/
def serveText : Nat → Server → List Char → String × List LogEntry
  | 0, _, _ => ("", [])
  | fuel + 1, s, cs =>
    match nextMessage? cs with
    | none => ("", [])
    | some (m, rest) =>
      let r := react s m
      if r.closed then (r.output, r.log)
      else
        let (output, log) := serveText fuel r.server rest
        (r.output ++ output, r.log ++ log)

/-- Runs the language server on the standard input and output. -/
def program : Program := fun flags => do
  if flags.command != some .lsp then throw .notSuitable
  let text := (← get).input.text.toList
  let (output, log) := serveText (text.length + 1) .initial text
  MachineM.log log
  MachineM.writeOut output

end EventTally.LanguageServer
