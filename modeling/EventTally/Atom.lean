import EventTally.Decimal.Integer
import EventTally.Text.Quoted

/-! # Atoms

The values without parts: null, truth values, 64-bit integers, doubles, strings and symbols.
They occur in source trees as well as at run time.
-/

namespace EventTally

inductive Atom where
  | null
  | bool (b : Bool)
  | int (i : Int64)
  | float (f : Float)
  | str (s : String)
  | sym (name : String)
  deriving Inhabited

namespace Atom

def kind : Atom → String
  | .null => "null"
  | .bool _ => "bool"
  | .int _ => "int"
  | .float _ => "float"
  | .str _ => "str"
  | .sym _ => "kw"

/-- Numbers are equal if their values as doubles are, whatever their kinds, but two integers are
compared exactly. -/
def equal : Atom → Atom → Bool
  | .null, .null => true
  | .bool a, .bool b => a == b
  | .int a, .int b => a == b
  | .int a, .float b => Decimal.ofInt64 a == b
  | .float a, .int b => a == Decimal.ofInt64 b
  | .float a, .float b => a == b
  | .str a, .str b => a == b
  | .sym a, .sym b => a == b
  | _, _ => false

/-- The same kind and the same scalar, doubles by their bits. -/
def same : Atom → Atom → Bool
  | .float a, .float b => a.toBits == b.toBits
  | .int a, .int b => a == b
  | .int _, .float _ | .float _, .int _ => false
  | a, b => a.equal b

/-- The source text of an atom. -/
def text : Atom → String
  | .null => "null"
  | .bool b => if b then "true" else "false"
  | .int i => toString i.toInt
  | .float f => Decimal.plainText f
  | .str s => Text.literal s
  | .sym name => name

def truthy : Atom → Bool
  | .null => false
  | .bool b => b
  | .int i => i != 0
  | .float f => f != 0
  | .str s => s != ""
  | .sym _ => true

end Atom

end EventTally
