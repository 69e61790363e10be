/-! # Table tests

A function is tested by a table of arguments and wanted results. A failure is reported with the
arguments and, if there is a format for results, with the wanted and the actual ones.
-/

namespace EventTally.Testing

inductive Cell where
  | int (i : Int64)
  | str (s : String)
  | bool (b : Bool)
  | none
  deriving DecidableEq, Repr, Inhabited

inductive Wanted where
  | cell (c : Cell)
  | any
  deriving DecidableEq, Repr, Inhabited

def Cell.text : Cell → String
  | .int i => toString i.toInt
  | .str s => s
  | .bool b => if b then "true" else "false"
  | .none => "<nil>"

def Wanted.text : Wanted → String
  | .cell c => c.text
  | .any => "\x7b\x7d"

def Cell.typed : Cell → String
  | .int i => "int=" ++ toString i.toInt
  | .str s => "string=" ++ s
  | .bool b => "bool=" ++ (Cell.bool b).text
  | .none => "<nil>"

def Wanted.typed : Wanted → String
  | .cell c => c.typed
  | .any => "tt.anyMatcher=\x7b\x7d"

def Wanted.fits (directive : Char) : Wanted → Bool
  | .any => true
  | .cell c =>
    match directive, c with
    | 'v', _ | 'd', .int _ | 't', .bool _ => true
    | _, _ => false

def directiveText (directive : Char) (w : Wanted) : String :=
  if w.fits directive then w.text
  else "%!" ++ directive.toString ++ "(" ++ w.typed ++ ")"

/-- Fills a format: each directive takes the next value. Too few and too many values are shown. -/
def fill : List Char → List Wanted → String
  | [], [] => ""
  | [], ws => "%!(EXTRA " ++ ", ".intercalate (ws.map Wanted.typed) ++ ")"
  | ['%'], ws => "%!(NOVERB)" ++ fill [] ws
  | '%' :: '%' :: cs, ws => "%" ++ fill cs ws
  | '%' :: d :: cs, [] => "%!" ++ d.toString ++ "(MISSING)" ++ fill cs []
  | '%' :: d :: cs, w :: ws => directiveText d w ++ fill cs ws
  | c :: cs, ws => c.toString ++ fill cs ws

/-- A function under test with the formats of its reports, empty if there are none. -/
structure TableFunction where
  name : String
  body : List Cell → List Cell
  argsFormat : String
  resultsFormat : String

/-- Arguments and the result lists that are wanted for them. -/
structure TableCase where
  args : List Cell
  wanted : List (List Wanted)
  deriving DecidableEq, Repr, Inhabited

def Wanted.matches : Wanted → Cell → Bool
  | .any, _ => true
  | .cell c, actual => c = actual

def matchesAll (wanted : List Wanted) (actual : List Cell) : Bool :=
  (wanted.zip actual).all fun (w, a) => w.matches a

def TableFunction.report (f : TableFunction) (args : List Cell) (wanted : List Wanted)
    (actual : List Cell) : String :=
  let shownArgs :=
    if f.argsFormat = "" then ", ".intercalate (args.map Cell.text)
    else fill f.argsFormat.toList (args.map .cell)
  let difference :=
    if f.resultsFormat = "" then ""
    else
      "-" ++ fill f.resultsFormat.toList wanted
        ++ "\n+" ++ fill f.resultsFormat.toList (actual.map .cell)
  f.name ++ "(" ++ shownArgs ++ ") returns (-Wanted +Actual):\n" ++ difference

def TableFunction.check (f : TableFunction) (c : TableCase) : List String :=
  let actual := f.body c.args
  (c.wanted.filter (!matchesAll · actual)).map fun wanted => f.report c.args wanted actual

end EventTally.Testing
