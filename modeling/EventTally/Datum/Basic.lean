import EventTally.Source.Expr

/-! # Data

A datum is a value seen as a whole: an atom, a collection with its elements, or a callable. It
has no identity and cannot change. Equality, hash, order and text of values are defined on it.
-/

namespace EventTally

inductive Datum where
  | atom (a : Atom)
  | list (elems : List Datum)
  | tuple (elems : List Datum)
  | dict (entries : List (Datum × Datum))
  | set (elems : List Datum)
  | builtin (name : String)
  /-- A function of the language: which one it is, and its definition. -/
  | closure (id : Nat) (name : String) (pattern body : Datum)
  deriving Inhabited

namespace Datum

@[match_pattern] abbrev null : Datum := .atom .null

@[match_pattern] abbrev bool (b : Bool) : Datum := .atom (.bool b)

@[match_pattern] abbrev int (i : Int64) : Datum := .atom (.int i)

@[match_pattern] abbrev float (f : Float) : Datum := .atom (.float f)

@[match_pattern] abbrev str (s : String) : Datum := .atom (.str s)

@[match_pattern] abbrev sym (name : String) : Datum := .atom (.sym name)

def kind : Datum → String
  | .atom a => a.kind
  | .list _ => "list"
  | .tuple _ => "tuple"
  | .dict _ => "dict"
  | .set _ => "set"
  | .builtin _ => "builtin"
  | .closure .. => "fn"

mutual

/-- A source tree as data: forms are lists. -/
def ofExpr : Expr → Datum
  | .atom a => .atom a
  | .form elems => .list (ofExprs elems)

def ofExprs : List Expr → List Datum
  | [] => []
  | e :: es => ofExpr e :: ofExprs es

end

/-- Combines hashes in order: 33 times the one so far plus the next. -/
def combineHash (h next : UInt32) : UInt32 := h * 33 + next

def hashWord (w : UInt64) : UInt32 := combineHash (w >>> 32).toUInt32 w.toUInt32

def hashText (s : String) : UInt32 :=
  s.toUTF8.foldl (fun h b => combineHash h b.toUInt32) 5381

/-- The seeds that keep symbols apart from strings and tuples from their elements. -/
def symbolSeed : UInt32 := 0x73796d62

def tupleSeed : UInt32 := 0x7475706c

/-- A double with an integral value that fits 64 bits hashes like that integer. -/
def hashFloat (f : Float) : UInt32 :=
  match Decimal.int64? f with
  | some i => hashWord i.toUInt64
  | none => hashWord f.toBits

def hashAtom : Atom → UInt32
  | .null => 2
  | .bool b => if b then 1 else 0
  | .int i => hashWord i.toUInt64
  | .float f => hashFloat f
  | .str s => hashText s
  | .sym name => combineHash symbolSeed (hashText name)

mutual

/-- The 32-bit hash of a datum, zero if it is not hashable. Callables hash by identity. -/
def hash : Datum → UInt32
  | .atom a => hashAtom a
  | .tuple elems => hashAll tupleSeed elems
  | .builtin name => hashText name
  | .closure id .. => hashWord id.toUInt64
  | .list _ | .dict _ | .set _ => 0

def hashAll (h : UInt32) : List Datum → UInt32
  | [] => h
  | d :: ds => hashAll (combineHash h (hash d)) ds

end

mutual

/-- Whether a datum can be a key: nothing in it can change. -/
def hashable : Datum → Bool
  | .atom _ | .builtin _ | .closure .. => true
  | .tuple elems => allHashable elems
  | .list _ | .dict _ | .set _ => false

def allHashable : List Datum → Bool
  | [] => true
  | d :: ds => hashable d && allHashable ds

end

mutual

/-- Numbers compare by value, sequences element by element, dicts and sets as unordered
collections found by key, callables by identity. -/
def equal : Datum → Datum → Bool
  | .atom a, .atom b => a.equal b
  | .list xs, .list ys => equalAll xs ys
  | .tuple xs, .tuple ys => equalAll xs ys
  | .dict xs, .dict ys => xs.length == ys.length && entriesIn xs ys
  | .set xs, .set ys => xs.length == ys.length && elemsIn xs ys
  | .builtin a, .builtin b => a == b
  | .closure a .., .closure b .. => a == b
  | _, _ => false

def equalAll : List Datum → List Datum → Bool
  | [], [] => true
  | x :: xs, y :: ys => equal x y && equalAll xs ys
  | _, _ => false

/-- Whether each entry is found by its key with an equal value. -/
def entriesIn : List (Datum × Datum) → List (Datum × Datum) → Bool
  | [], _ => true
  | (k, v) :: xs, ys =>
    (match ys.find? (fun e => equal k e.1 && hash k == hash e.1) with
     | some e => equal v e.2
     | none => false) && entriesIn xs ys

def elemsIn : List Datum → List Datum → Bool
  | [], _ => true
  | x :: xs, ys => ys.any (fun y => equal x y && hash x == hash y) && elemsIn xs ys

end

/-- Whether two data are the same key: equal and found under the same hash. Equal keys with different
hashes count as two; a hash map may take them for one, as its other keys have it. -/
def sameKey (k l : Datum) : Bool := equal k l && hash k == hash l

/-- The data are of kinds that have no order between them. -/
structure Incomparable where
  left : String
  right : String
  deriving DecidableEq, Repr, Inhabited

def compareFloats (a b : Float) : Ordering := if a < b then .lt else if a > b then .gt else .eq

def compareAtoms : Atom → Atom → Except Incomparable Ordering
  | .int a, .int b => .ok (compare a.toInt b.toInt)
  | .int a, .float b => .ok (compareFloats (Decimal.ofInt64 a) b)
  | .float a, .int b => .ok (compareFloats a (Decimal.ofInt64 b))
  | .float a, .float b => .ok (compareFloats a b)
  | .str a, .str b => .ok (if a < b then .lt else if a = b then .eq else .gt)
  | .bool a, .bool b => .ok (compare a.toNat b.toNat)
  | a, b => .error ⟨a.kind, b.kind⟩

mutual

/-- Numbers by value, strings by their bytes, false before true, sequences of one kind by their
first elements that are not equal. -/
def order : Datum → Datum → Except Incomparable Ordering
  | .atom a, .atom b => compareAtoms a b
  | .list xs, .list ys => orderAll xs ys
  | .tuple xs, .tuple ys => orderAll xs ys
  | a, b => .error ⟨a.kind, b.kind⟩

def orderAll : List Datum → List Datum → Except Incomparable Ordering
  | x :: xs, y :: ys => if equal x y then orderAll xs ys else order x y
  | [], [] => .ok .eq
  | [], _ :: _ => .ok .lt
  | _ :: _, [] => .ok .gt

end

end Datum

end EventTally
