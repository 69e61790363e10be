/-! # Command lines

A command line is a list of options and operands. Options stand anywhere before `--`, and long
ones may be shortened as long as they stay unique. What the options and operands mean together is
decided by the first form of the command that takes all of them; an option may occur only once.
-/

namespace EventTally.CommandLine

inductive Opt where
  | code
  | check
  | json
  | db
  | log
  | write
  | help
  | version
  deriving DecidableEq, Repr, Inhabited

namespace Opt

def all : List Opt := [.code, .check, .json, .db, .log, .write, .help, .version]

def long? : Opt → Option String
  | .check => some "check"
  | .json => some "json"
  | .db => some "db"
  | .log => some "log"
  | .help => some "help"
  | .version => some "version"
  | .code | .write => none

def short? : Opt → Option Char
  | .code => some 'c'
  | .write => some 'w'
  | .help => some 'h'
  | _ => none

def takesValue : Opt → Bool
  | .code | .db | .log => true
  | _ => false

/-- The option with a long name, or the only one whose name starts so. -/
def ofLong? (name : String) : Option Opt :=
  match all.find? fun o => o.long? == some name with
  | some o => some o
  | none =>
    match all.filter fun o => (o.long?.map (name.isPrefixOf ·)).getD false with
    | [o] => some o
    | _ => none

def ofShort? (c : Char) : Option Opt := all.find? fun o => o.short? == some c

end Opt

/-- A part of a command line: an option with its value, empty if it takes none, or an operand. -/
inductive Word where
  | option (o : Opt) (value : String)
  | operand (text : String)
  deriving DecidableEq, Repr, Inhabited

/-- What one argument says: words, and an option whose value is the next argument. -/
structure Reading where
  words : List Word
  pending : Option Opt

def readLong (cs : List Char) : Option Reading := do
  let name := String.ofList (cs.takeWhile (· != '='))
  let o ← Opt.ofLong? name
  match cs.dropWhile (· != '=') with
  | _ :: value =>
    if o.takesValue then some { words := [.option o (String.ofList value)], pending := none }
    else none
  | [] =>
    if o.takesValue then some { words := [], pending := some o }
    else some { words := [.option o ""], pending := none }

/-- Reads the letters after one dash. The value of an option may follow its letter directly. -/
def readShort : List Char → Option Reading
  | [] => some { words := [], pending := none }
  | c :: cs => do
    let o ← Opt.ofShort? c
    if o.takesValue then
      if cs.isEmpty then some { words := [], pending := some o }
      else some { words := [.option o (String.ofList cs)], pending := none }
    else
      let later ← readShort cs
      some { later with words := .option o "" :: later.words }

def readArgument (arg : String) : Option Reading :=
  match arg.toList with
  | '-' :: '-' :: cs => readLong cs
  | '-' :: c :: cs => readShort (c :: cs)
  | _ => some { words := [.operand arg], pending := none }

/-- The words of a command line. From `--` on all arguments are operands, itself included. -/
def words? : List String → Option (List Word)
  | [] => some []
  | arg :: rest =>
    if arg = "--" then some ((arg :: rest).map .operand)
    else
      match readArgument arg, rest with
      | none, _ => none
      | some { words, pending := none }, rest => (words? rest).map (words ++ ·)
      | some { pending := some _, .. }, [] => none
      | some { words, pending := some o }, value :: rest =>
        if value = "--" then none
        else (words? rest).map (words ++ .option o value :: ·)

inductive Command where
  | fmt
  | feed
  | show
  | lsp
  deriving DecidableEq, Repr, Inhabited

def Command.name : Command → String
  | .fmt => "fmt"
  | .feed => "feed"
  | .show => "show"
  | .lsp => "lsp"

structure Flags where
  log : String
  db : String
  help : Bool
  version : Bool
  json : Bool
  check : Bool
  /-- Code given on the command line. -/
  code : Option String
  /-- None for the interactive and the script mode. -/
  command : Option Command
  write : Bool
  args : List String
  deriving DecidableEq, Repr, Inhabited

/-- The options that may go with any form but the one for help. -/
def common : List Opt := [.check, .json, .db, .log]

/-- A form of the command: the options it takes and the meaning of options and operands. -/
structure Form where
  options : List Opt
  read : List Opt → List String → Option (Option Command × List String)

def forms : List Form :=
  [{ options := .write :: common
     read := fun _ operands =>
      match operands with
      | "fmt" :: file :: files => some (some .fmt, file :: files)
      | _ => none },
   { options := common
     read := fun _ operands =>
      match operands with
      | ["feed", rules] => some (some .feed, [rules])
      | ["feed", rules, events] => some (some .feed, [rules, events])
      | _ => none },
   { options := common
     read := fun _ operands =>
      match operands with
      | ["show", rules] => some (some .show, [rules])
      | _ => none },
   { options := common
     read := fun _ operands => if operands = ["lsp"] then some (some .lsp, []) else none },
   { options := .code :: common
     read := fun options operands =>
      match operands with
      | [] => some (none, [])
      | [file] => if options.contains .code then none else some (none, [file])
      | _ => none },
   { options := .version :: common
     read := fun options operands =>
      if operands = [] && options.contains .version then some (none, []) else none },
   { options := [.help]
     read := fun options operands =>
      if operands = [] && options = [.help] then some (none, []) else none }]

def Form.flags? (f : Form) (options : List (Opt × String)) (operands : List String) :
    Option Flags :=
  let names := options.map (·.1)
  if names.all f.options.contains then
    (f.read names operands).map fun (command, args) =>
      let value := fun o => (options.lookup o).getD ""
      { log := value .log
        db := value .db
        help := names.contains .help
        version := names.contains .version
        json := names.contains .json
        check := names.contains .check
        code := options.lookup .code
        command
        write := names.contains .write
        args }
  else none

def Flags.ofWords? (ws : List Word) : Option Flags :=
  let options := ws.filterMap fun
    | .option o value => some (o, value)
    | .operand _ => none
  let operands := ws.filterMap fun
    | .operand text => some text
    | .option .. => none
  if (options.map (·.1)).eraseDups.length < options.length then none
  else forms.findSome? (·.flags? options operands)

/-- What the arguments of a command line ask for, none if no form takes them. -/
def Flags.parse? (args : List String) : Option Flags := (words? args).bind Flags.ofWords?

def usageLines : List String :=
  ["tally, a small language for rules and tallies.",
   "",
   "Usage:",
   "  tally [options] fmt [-w] FILES...",
   "  tally [options] feed RULES [EVENTS]",
   "  tally [options] show RULES",
   "  tally [options] lsp",
   "  tally [options] [-c CODE | FILE]",
   "  tally [options] --version",
   "  tally -h | --help",
   "",
   "Options:",
   "  -c CODE     Evaluate CODE instead of reading a file.",
   "  --check     Only parse the code and report errors.",
   "  --json      Write errors of --check and the output of show as JSON.",
   "  --db FILE   Path of the database.",
   "  --log FILE  Write the debug log to FILE.",
   "  -w          Write formatted code back to the files.",
   "  -h --help   Show this help.",
   "  --version   Show the version.",
   "",
   "Without -c or FILE, tally reads code interactively. The database defaults to",
   "$TALLY_DB, or db.bolt in $XDG_STATE_HOME/tally. Setting TALLY_HISTORY to 0",
   "disables the history of the interactive mode."]

def usage : String := String.join (usageLines.map (· ++ "\n"))

end EventTally.CommandLine
