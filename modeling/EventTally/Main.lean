import EventTally.App
import EventTally.Store.File

/-! # The command

The outer layer: it loads the files that a command line names, runs the program on them and writes
back what changed. Sessions with a person or an editor go on step by step, so that each answer is
seen before the next input.
-/

namespace EventTally.Command

open CommandLine

def contentOf (bytes : ByteArray) : Content :=
  match String.fromUTF8? bytes with
  | none => .binary bytes.toList
  | some text =>
    match Store.ofFileText? text with
    | some s => .database s
    | none => .text text

def bytesOf : Content → ByteArray
  | .text s => s.toUTF8
  | .binary bytes => ⟨bytes.toArray⟩
  | .database s => s.fileText.toUTF8

def probe (path : String) : IO (Option FileEntry) := do
  try
    return some (.file (contentOf (← IO.FS.readBinFile path)))
  catch
    | .inappropriateType _ code _ => return if code = 21 then some .directory else none
    | _ => return none

/-- Adds what is at the waypoints of a path. -/
def load (fs : Files) (path : String) : IO Files := do
  if path = "" then return fs
  let mut fs := fs
  for waypoint in Path.waypoints (fs.absolute path) do
    if waypoint != "/" then
      match ← probe waypoint with
      | some e => fs := fs.put (Path.parts waypoint) e
      | none => pure ()
  return fs

def writeBack (before after : Files) : IO Unit := do
  for (place, entry) in after.entries do
    let path := "/" ++ "/".intercalate place
    match entry with
    | .directory => IO.FS.createDirAll path
    | .file _ => pure ()
  for (place, entry) in after.entries do
    let path := "/" ++ "/".intercalate place
    match entry, before.entries.lookup place with
    | .file c, some (.file old) => if c != old then IO.FS.writeBinFile path (bytesOf c)
    | .file c, _ => IO.FS.writeBinFile path (bytesOf c)
    | .directory, _ => pure ()

def settingNames : List String := ["HOME", "TALLY_DB", "TALLY_HISTORY", "XDG_STATE_HOME"]

def settings : IO (List (String × String)) :=
  settingNames.filterMapM fun name => do
    return (← IO.getEnv name).map fun v => (name, v)

def terminalWidth : IO Int := do
  if ← (← IO.getStdout).isTty then
    return ((((← IO.getEnv "COLUMNS").bind String.toNat?).map Int.ofNat).getD 80)
  else return -1

def machineFor (flags : Flags) : IO Machine := do
  let place := Path.parts ((← IO.getEnv "PWD").getD "/")
  let above := (List.range place.length).map fun i => (place.take (i + 1), FileEntry.directory)
  let m : Machine :=
    { files := { top := "", entries := above, current := place }
      env := ← settings
      input := .stream ""
      width := ← terminalWidth
      maxHistory := 1000
      compiler := "unknown"
      logFile := none
      stdout := ""
      stderr := "" }
  let (database, _) := Database.defaultPath.run m
  let database := if flags.db != "" then flags.db else database.toOption.getD ""
  let mut files := m.files
  for path in flags.args ++ [flags.log, database] do
    files ← load files path
  return { m with files }

def flush (m : Machine) : IO Machine := do
  (← IO.getStdout).putStr m.stdout
  (← IO.getStderr).putStr m.stderr
  (← IO.getStdout).flush
  return { m with stdout := "", stderr := "" }

/-- Reads lines until the input ends. -/
partial def readAll (input : IO.FS.Stream) (text : String) : IO String := do
  let line ← input.getLine
  if line.isEmpty then return text else readAll input (text ++ line)

/-- Reads and evaluates code until the input ends. -/
partial def converse (prompt : String → MachineM Unit) (d : Shell.Dialogue) (pending : String)
    (m : Machine) : IO Machine := do
  let m ← flush ((prompt (Shell.promptAfter pending)).run m).2
  let line ← (← IO.getStdin).getLine
  if line.isEmpty then
    if pending = "" then return (d.session.close.run m).2
    else
      let (d, m) := (d.enter pending).run m
      converse prompt d "" m
  else
    let (event, pending) := Shell.take pending (.line (Text.chopLineEnding line))
    match event with
    | some (.code code) =>
      let (d, m) := (d.enter code).run m
      converse prompt d pending m
    | _ => converse prompt d pending m

def interactive (flags : Flags) (m : Machine) : IO Machine := do
  let history := (m.env.lookup "TALLY_HISTORY").getD ""
  let prompt := if ← (← IO.getStdin).isTty then MachineM.writeOut else MachineM.writeErr
  let (d, m) := (Shell.startDialogue flags.db (history != "0")).run m
  flush (← converse prompt d "" m)

/-- Reads the lines of a header. -/
partial def readHeader (input : IO.FS.Stream) (lines : List String) : IO (Option (List String)) := do
  let line ← input.getLine
  if line.isEmpty then return none
  match Text.chopLineEnding line with
  | "" => return some lines
  | text => readHeader input (lines ++ [text])

/-- Reads bytes until there are as many as asked for or the input ends. -/
partial def readBytes (input : IO.FS.Stream) (n : Nat) (bytes : ByteArray) : IO ByteArray := do
  if n ≤ bytes.size then return bytes
  let more ← input.read (n - bytes.size).toUSize
  if more.isEmpty then return bytes else readBytes input n (bytes ++ more)

/-- Answers the messages of an editor until it closes the connection. -/
partial def serve (s : LanguageServer.Server) (m : Machine) : IO Machine := do
  let input ← IO.getStdin
  match (← readHeader input []).bind LanguageServer.contentLength? with
  | none => return m
  | some n =>
    let body := String.fromUTF8? (← readBytes input n ByteArray.empty)
    let message := (body.bind fun text => Json.readFirst text.toList).bind fun (j, _) =>
      LanguageServer.Message.ofJson? j
    match message with
    | none => serve s m
    | some message =>
      let r := LanguageServer.react s message
      let (_, m) := (do MachineM.log r.log; MachineM.writeOut r.output : MachineM Unit).run m
      let m ← flush m
      if r.closed then return m else serve r.server m

def isInteractive (flags : Flags) : Bool :=
  !flags.help && !flags.version && flags.command.isNone && flags.code.isNone && flags.args.isEmpty

def runWith (args : List String) (flags : Flags) : IO Int := do
  let before ← machineFor flags
  let logged := if flags.log != "" then ((MachineM.startLog flags.log).run before).2 else before
  let (status, after) ←
    if isInteractive flags then pure (0, ← interactive flags logged)
    else if flags.command = some .lsp && !flags.help then pure (0, ← serve .initial logged)
    else
      let readsEvents := flags.command = some .feed && flags.args.length = 1
      let text ← if readsEvents then readAll (← IO.getStdin) "" else pure ""
      pure ((app.run args).run { before with input := .stream text })
  let after ← flush after
  writeBack before.files after.files
  return status

/-- Runs the program on a command line. -/
def run (args : List String) : IO Int := do
  match Flags.parse? args with
  | some flags => runWith args flags
  | none =>
    (← IO.getStderr).putStr ("bad command line\n" ++ usage)
    return 2

end EventTally.Command

def main (args : List String) : IO UInt32 := do
  return (← EventTally.Command.run args).toNat.toUInt32
