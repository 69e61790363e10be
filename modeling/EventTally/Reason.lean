import EventTally.Datum.Repr

/-! # Reasons of failure

Why an operation on values, an evaluation, or an access to stored accumulators fails. Each cause
has one wording, given by `Reason.message`.
-/

namespace EventTally

inductive Reason where
  /-- A value lies outside its range; an empty range has `high < low`. -/
  | outOfRange (what : String) (low high : Int) (actual : String)
  | badValue (what valid actual : String)
  /-- A number of values is wrong; `high = -1` stands for no upper bound. -/
  | arity (what : String) (low high actual : Int)
  | noSuchName (name : String)
  | patternMismatch (what detail : String)
  | noSuchKey (key : Datum)
  | cannotIterate (kind : String)
  | unhashable (kind : String)
  | incomparable (left right : String)
  | divisionByZero
  | emptyForm
  | zeroStep
  | emptySeparator
  | raised
  | noSuchTally
  | keyRequired
  | malformedJson
  | numberRange (text : String)
  | noPrefix
  | nonFinite
  | tooDeep
  | keyCount (n : Nat)
  | notArray (kind : String)
  | badEntry
  | unknownKind (kind : String)
  | extraData
  | accumulatorKind (kind : String)
  deriving Inhabited

namespace Reason

def plural (n : Int) (noun : String) : String :=
  if n = 1 then "1 " ++ noun else toString n ++ " " ++ noun ++ "s"

def message : Reason → String
  | .outOfRange what low high actual =>
    if high < low then "out of range: " ++ what ++ " has no valid value, but is " ++ actual
    else "out of range: " ++ what ++ " must be from " ++ toString low ++ " to " ++ toString high
      ++ ", but is " ++ actual
  | .badValue what valid actual =>
    "bad value: " ++ what ++ " must be " ++ valid ++ ", but is " ++ actual
  | .arity what low high actual =>
    let range :=
      if high = low then plural low "value"
      else if high = -1 then toString low ++ " or more values"
      else toString low ++ " to " ++ toString high ++ " values"
    "arity mismatch: " ++ what ++ " must be " ++ range ++ ", but is " ++ plural actual "value"
  | .noSuchName name => "name " ++ name ++ " is not defined"
  | .patternMismatch what detail => "pattern mismatch: " ++ what ++ " " ++ detail
  | .noSuchKey key => "no such key: " ++ key.plain
  | .cannotIterate kind => "cannot iterate " ++ kind
  | .unhashable kind => "unhashable value of kind " ++ kind
  | .incomparable left right => "cannot compare " ++ left ++ " and " ++ right
  | .divisionByZero => "division by zero"
  | .emptyForm => "cannot evaluate empty form"
  | .zeroStep => "slice step cannot be zero"
  | .emptySeparator => "empty separator"
  | .raised => "raised"
  | .noSuchTally => "no such tally"
  | .keyRequired => "key required"
  | .malformedJson => "malformed JSON"
  | .numberRange text =>
    "strconv.ParseFloat: parsing " ++ Text.mention text ++ ": value out of range"
  | .noPrefix => "string without s: or k: prefix"
  | .nonFinite => "cannot encode infinite or NaN float"
  | .tooDeep => "exceeded max depth"
  | .keyCount n => "object must have exactly one key, but has " ++ toString n
  | .notArray kind => kind ++ " must be encoded as an array"
  | .badEntry => "dict entry must be a [key, value] array"
  | .unknownKind kind => "unknown object kind " ++ Text.mention kind
  | .extraData => "extra data after JSON value"
  | .accumulatorKind kind => "accumulator must be a dict, but is " ++ kind

end Reason

end EventTally
