/-! # Reading decimals

The double nearest to a decimal, ties to the even one. A magnitude beyond the largest double is
infinite and one below half the smallest is zero, so the power of ten is bounded first.
-/

namespace EventTally.Decimal

def digitValue (c : Char) : Nat := c.toNat - '0'.toNat

def natOfDigits (cs : List Char) : Nat := cs.foldl (fun n c => 10 * n + digitValue c) 0

def nearest (m : Nat) (e : Int) : Float :=
  if m = 0 then 0
  else
    let size : Int := (Nat.toDigits 10 m).length
    if 310 < size + e then Float.ofBits 0x7FF0000000000000
    else if size + e < -330 then 0
    else Float.ofScientific m (e < 0) e.natAbs

/-- The double nearest to `whole.places · 10^exponent`, with a sign. -/
def read (negative : Bool) (whole places : List Char) (exponent : Int) : Float :=
  let f := nearest (natOfDigits (whole ++ places)) (exponent - places.length)
  if negative then -f else f

def splitSign : List Char → Bool × List Char
  | '-' :: cs => (true, cs)
  | '+' :: cs => (false, cs)
  | cs => (false, cs)

def readInt (cs : List Char) : Int :=
  let (negative, digits) := splitSign cs
  let n : Int := natOfDigits digits
  if negative then -n else n

def int64Min : Int := -9223372036854775808

def int64Max : Int := 9223372036854775807

def readInt64? (cs : List Char) : Option Int64 :=
  let n := readInt cs
  if int64Min ≤ n && n ≤ int64Max then some (Int64.ofInt n) else none

/-- Reads `digits.digits` with an optional sign; none if the nearest double is infinite. -/
def readPlain? (cs : List Char) : Option Float :=
  let (negative, body) := splitSign cs
  let whole := body.takeWhile (· ≠ '.')
  let places := (body.dropWhile (· ≠ '.')).drop 1
  let f := read negative whole places 0
  if f.isInf then none else some f

end EventTally.Decimal
