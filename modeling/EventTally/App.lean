import EventTally.LanguageServer.Connection
import EventTally.Program.Version
import EventTally.Shell.Script
import EventTally.Tally.Command

/-! # The whole program

The version, the language server, the commands on tallies and the shell, tried in this order.
-/

namespace EventTally

def app : Program :=
  Program.composite
    [Version.program, LanguageServer.program, TallyCommand.program, Shell.program]

end EventTally
