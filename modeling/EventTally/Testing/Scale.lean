import EventTally.Decimal.Integer
import EventTally.Decimal.Literal

/-! # Scaled times

Time limits of tests are multiplied by a factor that the environment sets. A factor that cannot be
read or is not positive counts as 1.
-/

namespace EventTally.Testing

def timeFactor (setting : String) : Float :=
  match Decimal.readLiteral? setting with
  | some f => if f ≤ 0 then 1 else f
  | none => 1

/-- The integer part of a double; the least integer if there is none that fits 64 bits. -/
def truncate (f : Float) : Int64 :=
  if -9223372036854775808.0 ≤ f && f < 9223372036854775808.0 then f.toInt64 else Int64.minValue

def scaled (setting : String) (time : Int64) : Int64 := truncate (Decimal.ofInt64 time * timeFactor setting)

end EventTally.Testing
