import EventTally.Program.Basic

/-! # Expectations about programs

A case runs a program with arguments and a standard input, and says how it should end and what it
should write.
-/

namespace EventTally.Testing

inductive TextWant where
  | exactly (text : String)
  | containing (part : String)
  deriving DecidableEq, Repr, Inhabited

def quoteLines (text : String) : String := "\"" ++ "\\n".intercalate (text.splitOn "\n") ++ "\""

namespace TextWant

def accepts (got : String) : TextWant → Bool
  | .exactly text => got == text
  | .containing part => part.isEmpty || 1 < (got.splitOn part).length

def text : TextWant → String
  | .exactly text => quoteLines text
  | .containing part => "text containing " ++ quoteLines part

end TextWant

structure RunResult where
  status : Int
  stdout : String
  stderr : String
  deriving DecidableEq, Repr, Inhabited

def runProgram (p : Program) (args : List String) (stdin : String) : MachineM RunResult := do
  modify fun m => { m with input := .stream stdin, logFile := none, stdout := "", stderr := "" }
  let status ← p.run args
  let m ← get
  return { status, stdout := m.stdout, stderr := m.stderr }

structure ProgramCase where
  args : List String
  stdin : String
  status : Int
  stdout : TextWant
  stderr : TextWant
  deriving DecidableEq, Repr, Inhabited

namespace ProgramCase

def check (c : ProgramCase) (got : RunResult) : List String :=
  let statusReport :=
    if c.status = got.status then []
    else ["got exit code " ++ toString got.status ++ ", want " ++ toString c.status]
  let textReport := fun (name : String) (want : TextWant) (text : String) =>
    if want.accepts text then []
    else ["got " ++ name ++ " " ++ quoteLines text ++ ", want " ++ want.text]
  statusReport ++ textReport "stdout" c.stdout got.stdout ++ textReport "stderr" c.stderr got.stderr

/-- Runs a program and reports what is not as wanted. -/
def run (p : Program) (c : ProgramCase) : MachineM (List String) := do
  return c.check (← runProgram p c.args c.stdin)

end ProgramCase

end EventTally.Testing
