import EventTally.Decimal.Reading

/-! # Number literals

Numbers as they are written in programs: decimal or hexadecimal, with a point and an exponent,
underscores between digits, and names for what is not finite. A hexadecimal number counts its
exponent in powers of two and must have one.
-/

namespace EventTally.Decimal

def isHexDigit (c : Char) : Bool := c.isDigit || ('a' ≤ c.toLower && c.toLower ≤ 'f')

def hexDigitValue (c : Char) : Nat :=
  if c.isDigit then digitValue c else c.toLower.toNat - 'a'.toNat + 10

def natInBase (base : Nat) (cs : List Char) : Nat :=
  cs.foldl (fun n c => base * n + hexDigitValue c) 0

inductive Before where
  | digit
  | underscore
  | other
  deriving DecidableEq, Repr, Inhabited

/-- Whether each underscore follows a digit and comes before one. -/
def separatesDigits (isDigit : Char → Bool) : Before → List Char → Bool
  | before, [] => before != .underscore
  | before, c :: cs =>
    if isDigit c then separatesDigits isDigit .digit cs
    else if c = '_' then before == .digit && separatesDigits isDigit .underscore cs
    else before != .underscore && separatesDigits isDigit .other cs

/-- Reads an exponent after its letter: an optional sign and at least one digit. -/
def readExponent? (cs : List Char) : Option Int :=
  let (negative, digits) := splitSign cs
  if digits.isEmpty || !digits.all (·.isDigit) then none
  else
    let n : Int := natOfDigits digits
    some (if negative then -n else n)

/-- A digit sequence with at most one point: the digits, and how many stand after the point. -/
def readMantissa? (isDigit : Char → Bool) (cs : List Char) : Option (List Char × Nat) :=
  let whole := cs.takeWhile isDigit
  let places :=
    match cs.dropWhile isDigit with
    | [] => some []
    | '.' :: places => if places.all isDigit then some places else none
    | _ => none
  places.bind fun places =>
    if (whole ++ places).isEmpty then none else some (whole ++ places, places.length)

/-- Reads a number without sign and underscores: its mantissa up to the letter of the exponent, and
the exponent, zero if there is no letter. -/
def readParts? (isDigit letter : Char → Bool) (cs : List Char) : Option ((List Char × Nat) × Int) := do
  let mantissa ← readMantissa? isDigit (cs.takeWhile (!letter ·))
  let exponent ←
    match cs.dropWhile (!letter ·) with
    | [] => some 0
    | _ :: exponent => readExponent? exponent
  return (mantissa, exponent)

/-- Exponents beyond this bound make no difference to a double. -/
def exponentBound : Int := 10000

def clampExponent (e : Int) : Int := max (-exponentBound) (min exponentBound e)

def nearestBinary (m : Nat) (e : Int) : Float :=
  if 0 ≤ e then nearest (m * Nat.pow 2 e.toNat) 0 else nearest (m * Nat.pow 5 e.natAbs) e

def readDecimal? (cs : List Char) : Option Float := do
  let ((digits, places), exponent) ← readParts? (·.isDigit) (·.toLower == 'e') cs
  return nearest (natInBase 10 digits) (clampExponent exponent - places)

def readHex? (cs : List Char) : Option Float := do
  let isLetter := fun (c : Char) => c.toLower == 'p'
  if !cs.any isLetter then none
  let ((digits, places), exponent) ← readParts? isHexDigit isLetter cs
  return nearestBinary (natInBase 16 digits) (clampExponent exponent - 4 * places)

/-- Reads a finite number without sign; one beyond the largest double is refused. -/
def readMagnitude? (cs : List Char) : Option Float :=
  let digits := cs.filter (· != '_')
  let result :=
    match cs with
    | '0' :: x :: rest =>
      if x.toLower = 'x' then
        if separatesDigits isHexDigit .digit rest then readHex? (digits.drop 2) else none
      else if separatesDigits (·.isDigit) .other cs then readDecimal? digits else none
    | _ => if separatesDigits (·.isDigit) .other cs then readDecimal? digits else none
  result.bind fun f => if f.isInf then none else some f

def readLiteral? (text : String) : Option Float :=
  let (negative, cs) := splitSign text.toList
  let name := String.ofList (cs.map Char.toLower)
  let magnitude :=
    if name = "inf" || name = "infinity" then some (Float.ofBits 0x7FF0000000000000)
    else if text.toLower = "nan" then some (0.0 / 0.0)
    else readMagnitude? cs
  magnitude.map fun f => if negative then -f else f

end EventTally.Decimal
