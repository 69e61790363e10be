import EventTally.Source.Token

/-! # Completion

The symbol that ends at the cursor is completed by the names that start with it.
-/

namespace EventTally.Shell

structure Completion where
  head : String
  names : List String
  tail : String
  deriving DecidableEq, Repr, Inhabited

/-- The symbol that a text ends with, empty if it does not end with one. -/
def lastSymbol (before : String) : String :=
  match ((Token.tokenize before).dropLast).getLast? with
  | some t =>
    if t.kind = .symbol && t.span.stop = Text.byteLength before.toList then t.text else ""
  | none => ""

/-- Completes the symbol before the cursor, whose position counts characters. -/
def complete (names : List String) (line : String) (cursor : Nat) : Completion :=
  let before := line.toList.take cursor
  let tail := String.ofList (line.toList.drop cursor)
  let symbol := lastSymbol (String.ofList before)
  if symbol = "" then { head := String.ofList before, names := [], tail }
  else
    { head := String.ofList (before.take (before.length - symbol.length))
      names := (names.filter (symbol.isPrefixOf ·)).mergeSort (· ≤ ·)
      tail }

end EventTally.Shell
