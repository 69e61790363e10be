/-! # Shortest decimals

The fewest decimal digits that identify a double. A finite double is `m · 2^q`; the reals that
round to it form an interval around it, whose ends belong to it if `m` is even. On the grids of
decimals with 1, 2, … 17 digits the two neighbours of the double are tried in turn, in exact
arithmetic, and the first grid that has a point in the interval gives the digits.
-/

namespace EventTally.Decimal

structure Digits where
  digits : List Char
  point : Int
  deriving DecidableEq, Repr, Inhabited

def Digits.trim (d : Digits) : Digits :=
  { d with digits := (d.digits.reverse.dropWhile (· = '0')).reverse }

/-- A finite double without its sign, as `mantissa · 2^exponent`. -/
structure Binary where
  mantissa : Nat
  exponent : Int
  /-- The next smaller double is only half as far away as the next larger one. -/
  atPower : Bool
  deriving DecidableEq, Repr, Inhabited

def signBit (bits : UInt64) : Bool := (bits >>> 63) = 1

def exponentField (bits : UInt64) : Nat := ((bits >>> 52) &&& 0x7FF).toNat

def mantissaField (bits : UInt64) : Nat := (bits &&& 0xFFFFFFFFFFFFF).toNat

def Binary.ofBits (bits : UInt64) : Binary :=
  let e := exponentField bits
  let m := mantissaField bits
  if e = 0 then { mantissa := m, exponent := -1074, atPower := false }
  else { mantissa := Nat.pow 2 52 + m, exponent := (e : Int) - 1075, atPower := m = 0 && 1 < e }

/-- Numerators over one denominator of the double and the ends of its rounding interval. -/
structure Interval where
  low : Nat
  value : Nat
  high : Nat
  scale : Nat
  closed : Bool
  deriving Repr, Inhabited

def Binary.interval (b : Binary) : Interval :=
  let m := 4 * b.mantissa
  let below := if b.atPower then 1 else 2
  let up := Nat.pow 2 b.exponent.toNat
  { low := (m - below) * up, value := m * up, high := (m + 2) * up,
    scale := 4 * Nat.pow 2 (-b.exponent).toNat, closed := b.mantissa % 2 = 0 }

def Interval.contains (i : Interval) (n d : Nat) : Bool :=
  let x := n * i.scale
  if i.closed then i.low * d ≤ x && x ≤ i.high * d else i.low * d < x && x < i.high * d

/-- The least `k` with `value < 10^k`, for a fraction `n / d`. -/
def magnitude (n d : Nat) : Int :=
  if d ≤ n then (Nat.toDigits 10 (n / d)).length
  else
    let rec shrink (fuel k n : Nat) : Int :=
      match fuel with
      | 0 => -(k : Int)
      | fuel + 1 => if d ≤ n * 10 then -(k : Int) else shrink fuel (k + 1) (n * 10)
    shrink 400 0 n

/-- The neighbours of the value on the grid of decimals with `count` digits, and of those in the
interval the nearer one, the even one if they are equally near. -/
def Interval.onGrid (i : Interval) (count : Nat) (k : Int) : Option Nat :=
  let e := k - count
  let up := Nat.pow 10 (-e).toNat
  let down := Nat.pow 10 e.toNat
  let n := i.value * up
  let d := i.scale * down
  let floor := n / d
  let rest := n % d
  let lowIn := 0 < floor && i.contains (floor * down) up
  let highIn := i.contains ((floor + 1) * down) up
  if lowIn && highIn then
    if 2 * rest < d then some floor
    else if d < 2 * rest then some (floor + 1)
    else if floor % 2 = 0 then some floor else some (floor + 1)
  else if lowIn then some floor
  else if highIn then some (floor + 1)
  else none

def Binary.shortest (b : Binary) : Digits :=
  let i := b.interval
  let k := magnitude i.value i.scale
  let hit := (List.range 17).findSome? fun j => (i.onGrid (j + 1) k).map fun n => (j + 1, n)
  match hit with
  | some (count, n) =>
    let digits := Nat.toDigits 10 n
    Digits.trim { digits := digits, point := k + ((digits.length : Int) - count) }
  | none => { digits := [], point := 0 }

/-- The shortest digits of a finite double without its sign; zero has none. -/
def shortest (f : Float) : Digits :=
  let b := Binary.ofBits f.toBits
  if b.mantissa = 0 then { digits := [], point := 0 } else b.shortest

/-- Positional notation with as many places as there are digits. -/
def Digits.positional (d : Digits) : List Char :=
  let whole :=
    if d.point ≤ 0 then ['0']
    else d.digits.take d.point.toNat ++ List.replicate (d.point.toNat - d.digits.length) '0'
  let zeros := List.replicate (-d.point).toNat '0'
  let places := zeros ++ d.digits.drop d.point.toNat
  if d.digits.length ≤ d.point.toNat || d.digits = [] then whole else whole ++ '.' :: places

/-- Scientific notation: one digit before the point, and an exponent with its sign and at least
two digits. -/
def Digits.scientific (d : Digits) : List Char :=
  let exponent := if d.digits = [] then 0 else d.point - 1
  let mantissa :=
    match d.digits with
    | [] => ['0']
    | [c] => [c]
    | c :: cs => c :: '.' :: cs
  let size := (toString exponent.natAbs).toList
  let padded := if size.length < 2 then '0' :: size else size
  mantissa ++ 'e' :: (if exponent < 0 then '-' else '+') :: padded

def signText (f : Float) : List Char := if signBit f.toBits then ['-'] else []

/-- Positional text that always has a point, so that it reads back as a float. -/
def plainText (f : Float) : String :=
  if f.isNaN then "nan"
  else if f.isInf then (if signBit f.toBits then "-inf" else "inf")
  else
    let text := (shortest f).positional
    let pointed := if text.contains '.' then text else text ++ ['.', '0']
    String.ofList (signText f ++ pointed)

/-- Text for storage: scientific below `10^-4` and from `10^6` on, otherwise positional. -/
def compactText (f : Float) : String :=
  let d := shortest f
  let exponent := if d.digits = [] then -1 else d.point - 1
  let text := if exponent < -4 || 6 ≤ exponent then d.scientific else d.positional
  let marked := if text.contains '.' || text.contains 'e' then text else text ++ ['.', '0']
  String.ofList (signText f ++ marked)

end EventTally.Decimal
