import EventTally.Eval.Evaluate
import EventTally.Text.Width

/-! # Printing results

A result is written on one line. On a terminal on which that line does not fit, it is indented
over several. Null is not written at all.
-/

namespace EventTally.Shell

/-- The text of a result for a terminal of a given width; there is no terminal if the width is not
positive. -/
def resultText (d : Datum) (width : Int) : String :=
  match d with
  | .null => ""
  | d =>
    let line := d.plain
    (if 0 < width && width < Text.displayWidth line then d.repr 0 else line) ++ "\n"

/-- How a failure is shown, with the place in the source or the calls that were active. -/
def faultText : SourceFault → String
  | .parse e => e.render "" ++ "\n"
  | .run (.raised e) => e.render "" ++ "\n"
  | .run f => "internal error: " ++ f.summary ++ "\n"

end EventTally.Shell
