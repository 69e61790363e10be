import EventTally.Log
import EventTally.Machine.Files

/-! # The machine a program runs on

All that a run of the program depends on and changes: files, environment variables, what is typed
or piped in, the width of the terminal, and the texts written so far.
-/

namespace EventTally

inductive Input where
  /-- A text that ends. -/
  | stream (text : String)
  /-- The terminal of the program itself, where a text is typed; prompts then go to the standard
  output. -/
  | terminal (typed : String)
  /-- The terminal of the program itself, opened so that it cannot be read. -/
  | unreadable
  deriving DecidableEq, Repr, Inhabited

/-- The whole text of an input. -/
def Input.text : Input → String
  | .stream s | .terminal s => s
  | .unreadable => ""

structure Machine where
  files : Files
  env : List (String × String)
  input : Input
  /-- The width of the terminal that the standard output is, negative if it is none. -/
  width : Int
  /-- How many entries of the history are kept. -/
  maxHistory : Int
  /-- The compiler that built the program. -/
  compiler : String
  /-- The file that the debug log is written to. -/
  logFile : Option String
  stdout : String
  stderr : String
  deriving Inhabited

abbrev MachineM := StateM Machine

namespace MachineM

def writeOut (text : String) : MachineM Unit :=
  modify fun m => { m with stdout := m.stdout ++ text }

def writeErr (text : String) : MachineM Unit :=
  modify fun m => { m with stderr := m.stderr ++ text }

/-- The value of an environment variable, empty if it is not set. -/
def setting (name : String) : MachineM String := do
  return ((← get).env.lookup name).getD ""

def logText (fs : Files) (path : String) : String :=
  match fs.read path with
  | .ok (.text s) => s
  | _ => ""

def log (es : List LogEntry) : MachineM Unit :=
  modify fun m =>
    match m.logFile with
    | none => m
    | some path =>
      let text := logText m.files path ++ String.join (es.map fun e => e.text ++ "\n")
      match m.files.write path (.text text) with
      | .ok files => { m with files }
      | .error _ => m

/-- Starts the debug log in a file, which is made if it is missing. -/
def startLog (path : String) : MachineM Unit := do
  let fs := (← get).files
  match fs.write path (.text (logText fs path)) with
  | .ok files => modify fun m => { m with files, logFile := some path }
  | .error f => writeErr (f.message ++ "\n")

end MachineM

end EventTally
