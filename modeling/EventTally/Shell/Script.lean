import EventTally.Program.Basic
import EventTally.Shell.Interact

/-! # Scripts, formatting and the shell

A script is evaluated, or only checked. Formatting writes each expression on a line of its own.
-/

namespace EventTally.Shell

open CommandLine

inductive SourceFileFault where
  | file (f : FileFault)
  | notText
  deriving DecidableEq, Repr, Inhabited

def SourceFileFault.message : SourceFileFault → String
  | .file f => f.message
  | .notText => "source is not UTF-8"

def readSource (fs : Files) (path : String) : Except SourceFileFault String :=
  match fs.read path with
  | .ok (.text s) => .ok s
  | .ok _ => .error .notText
  | .error f => .error (.file f)

def errorsJson : Option ParseError → Json
  | none => .arr []
  | some e =>
    .arr [.obj [("fileName", .str e.source.name), ("start", .num (toString e.span.start)),
      ("end", .num (toString e.span.stop)), ("message", .str e.fault.message)]]

def checkSource (json : Bool) (src : Source) : MachineM Int := do
  let error := src.parse.error
  if json then MachineM.writeOut ((errorsJson error).text ++ "\n")
  else
    match error with
    | some e => MachineM.writeErr (e.render "" ++ "\n")
    | none => pure ()
  return if error.isSome then 2 else 0

def runSource (db : String) (src : Source) : MachineM Int := do
  let session ← openSession db
  let (result, session) ← session.evaluate src
  session.close
  return match result with
    | .ok _ => 0
    | .error _ => 2

def scriptSource (flags : Flags) : MachineM (Except String Source) := do
  match flags.code with
  | some code => return .ok { name := "code from -c", code }
  | none =>
    let fs := (← get).files
    let name := fs.absolute (flags.args.headD "")
    match readSource fs name with
    | .ok code => return .ok { name, code }
    | .error f =>
      return .error ("cannot read script " ++ Text.mention name ++ ": " ++ f.message ++ "\n")

def script (flags : Flags) : MachineM Int := do
  match ← scriptSource flags with
  | .error text =>
    MachineM.writeErr text
    return 2
  | .ok src => if flags.check then checkSource flags.json src else runSource flags.db src

def formatted (es : List Expr) : String :=
  let text := Expr.serializeAll es
  if text = "" then "" else text ++ "\n"

/-- Why a file is not formatted, ready to be shown. -/
def formatText (path code : String) : Except String String :=
  if Token.hasComment code then
    .error (complaint ("cannot format " ++ path ++ ": it has comments"))
  else
    match Source.parse? { name := path, code } with
    | .error e => .error (e.render "" ++ "\n")
    | .ok es => .ok (formatted es)

def formatFile (write : Bool) (path : String) : MachineM Bool := do
  let failed (text : String) : MachineM Bool := do
    MachineM.writeErr text
    return false
  match readSource (← get).files path with
  | .error f => failed (complaint ("cannot read " ++ path ++ ": " ++ f.message))
  | .ok code =>
    match formatText path code with
    | .error text => failed text
    | .ok text =>
      if !write then
        MachineM.writeOut text
        return true
      else if text = code then return true
      else
        MachineM.log [{ topic := "shell", message := "rewriting " ++ path }]
        match (← get).files.write path (.text text) with
        | .ok files =>
          modify fun m => { m with files }
          return true
        | .error f => failed (complaint f.message)

/-- Formats files; all are tried, and one that fails makes the status 2. -/
def format (write : Bool) (paths : List String) : MachineM Int := do
  let results ← paths.mapM (formatFile write)
  return if results.all id then 0 else 2

def program : Program := fun flags => do
  match flags.command with
  | some .fmt => exitWith (← format flags.write flags.args)
  | some _ => throw .notSuitable
  | none =>
    if flags.code.isSome || !flags.args.isEmpty then exitWith (← script flags)
    else
      let history ← MachineM.setting "TALLY_HISTORY"
      interact flags.db (history != "0")

end EventTally.Shell
