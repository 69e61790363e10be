import EventTally.Shell.Session
import EventTally.Text.Blank

/-! # The interactive mode

Pieces of code are read at prompts and evaluated one after the other. A failure is shown and the
session goes on. Pieces that are not blank are numbered and kept in the history.
-/

namespace EventTally.Shell

/-- An interactive session: the history is kept if `history` is set, and `count` pieces of code
have been entered. -/
structure Dialogue where
  session : Session
  history : Bool
  count : Nat

/-- Drops the oldest entries of the history beyond those that are kept. -/
def trimHistory (d : Dialogue) : MachineM Dialogue := do
  if !d.history then return d
  let (trimmed, store) := d.session.world.store.trimHistory (← get).maxHistory
  if 0 < trimmed then
    MachineM.log [{ topic := "shell"
                    message := "trimmed " ++ toString trimmed ++ " history entries" }]
  return { d with session := { d.session with world := { d.session.world with store } } }

def startDialogue (db : String) (history : Bool) : MachineM Dialogue := do
  let session ← openSession db
  trimHistory { session, history := history && session.database.isSome, count := 0 }

def Dialogue.remember (d : Dialogue) (code : String) : Dialogue :=
  if d.history then
    let store := (d.session.world.store.addHistory code).2
    { d with session := { d.session with world := { d.session.world with store } } }
  else d

def noteCrash : Except SourceFault Unit → MachineM Unit
  | .error (.run .crashed) =>
    MachineM.log [{ topic := "shell", message := "panic: " ++ Fault.crashed.summary }]
  | _ => pure ()

def Dialogue.enter (d : Dialogue) (code : String) : MachineM Dialogue := do
  if (Text.trim code).isEmpty then return d
  let d := d.remember code
  let count := d.count + 1
  let src : Source := { name := "[tty " ++ toString count ++ "]", code }
  let (result, session) ← d.session.evaluate src
  noteCrash result
  return { d with session, count }

/-- Goes through what happens while code is read; `prompt` writes the prompts. -/
def Dialogue.follow (prompt : String → MachineM Unit) (d : Dialogue) :
    List ReadEvent → MachineM Dialogue
  | [] => return d
  | .prompt text :: rest => do
    prompt text
    d.follow prompt rest
  | .code code :: rest => do
    let d ← d.enter code
    d.follow prompt rest
  | .interrupted :: rest | .ended :: rest => d.follow prompt rest

/-- The lines of a text without their line endings. -/
def typedLines (text : String) : List Typed :=
  let lines := (Text.splitLines text.toList).map String.ofList
  let chopped := lines.dropLast.map fun l => Text.chopLineEnding (l ++ "\n")
  let last := lines.getLastD ""
  (chopped ++ if last = "" then [] else [last]).map .line

def interact (db : String) (history : Bool) : MachineM Unit := do
  let d ← startDialogue db history
  let d ←
    match (← get).input with
    | .stream text => d.follow MachineM.writeErr (transcript "" (typedLines text))
    | .terminal text => d.follow MachineM.writeOut (transcript "" (typedLines text))
    | .unreadable =>
      let problem := "Editor error: read /dev/stdin: bad file descriptor\n"
      MachineM.writeOut mainPrompt
      MachineM.writeErr (problem ++ "Falling back to basic line editor\n")
      MachineM.writeErr (mainPrompt ++ problem)
      pure d
  d.session.close

end EventTally.Shell
