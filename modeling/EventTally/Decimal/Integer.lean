import EventTally.Decimal.Reading
import EventTally.Decimal.Shortest

/-! # Integers among the doubles

The double nearest to an integer of 64 bits, and the integer that a double is.
-/

namespace EventTally.Decimal

def ofInt64 (i : Int64) : Float :=
  let size := i.toInt.natAbs.toUInt64.toFloat
  if i.toInt < 0 then -size else size

/-- The integer that a double is; none if it has a fraction or is not finite. -/
def integer? (f : Float) : Option Int :=
  let b := Binary.ofBits f.toBits
  let n := b.mantissa * Nat.pow 2 b.exponent.toNat
  let unit := Nat.pow 2 (-b.exponent).toNat
  if f.isFinite && n % unit == 0 then
    let size : Int := (n / unit : Nat)
    some (if signBit f.toBits then -size else size)
  else none

def int64? (f : Float) : Option Int64 :=
  match integer? f with
  | some n => if int64Min ≤ n && n ≤ int64Max then some (Int64.ofInt n) else none
  | none => none

end EventTally.Decimal
