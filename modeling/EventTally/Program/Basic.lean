import EventTally.CommandLine.Flags
import EventTally.Machine.Basic

/-! # Programs

A program does what a command line asks for, or says that it is not the one to do it. Programs are
tried in turn until one does it, and the way it ends gives the exit status.
-/

namespace EventTally

open CommandLine

inductive Failure where
  /-- The command line asks for something else. -/
  | notSuitable
  /-- The command line is wrong; the usage is shown. -/
  | badUsage (message : String)
  /-- An exit status with nothing more to say. -/
  | exit (status : Int)
  | error (message : String)
  deriving DecidableEq, Repr, Inhabited

namespace Failure

def message : Failure → String
  | .notSuitable => "internal error: no suitable subprogram"
  | .badUsage m => m
  | .exit _ => ""
  | .error m => m

def status : Failure → Int
  | .exit n => n
  | _ => 2

end Failure

def exitWith (status : Int) : ExceptT Failure MachineM Unit :=
  if status = 0 then pure () else throw (.exit status)

abbrev Program := Flags → ExceptT Failure MachineM Unit

namespace Program

def composite : List Program → Program
  | [], _ => throw .notSuitable
  | p :: ps, flags => fun m =>
    match (p flags).run m with
    | (.error .notSuitable, m) => (composite ps flags).run m
    | result => result

def report (f : Failure) : MachineM Int := do
  if f.message != "" then MachineM.writeErr (f.message ++ "\n")
  match f with
  | .badUsage _ => MachineM.writeErr usage
  | _ => pure ()
  return f.status

/-- Runs a program with the arguments of a command line and gives its exit status. -/
def run (p : Program) (args : List String) : MachineM Int := do
  match Flags.parse? args with
  | none =>
    MachineM.writeErr ("bad command line\n" ++ usage)
    return 2
  | some flags =>
    if flags.log != "" then MachineM.startLog flags.log
    if flags.help then
      MachineM.writeOut usage
      return 0
    else
      match ← (p flags).run with
      | .ok _ => return 0
      | .error f => report f

end Program

end EventTally
