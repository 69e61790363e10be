/-! # Builtins

The functions that the language comes with, by what they do, and the three that a host adds. A
builtin is the same value wherever it is found.
-/

namespace EventTally

inductive Arith where
  | add
  | sub
  | mul
  | div
  deriving DecidableEq, Repr, Inhabited

/-- The relations that adjacent arguments of a comparison have to satisfy. -/
inductive Relation where
  | eq
  | ne
  | lt
  | le
  | gt
  | ge
  deriving DecidableEq, Repr, Inhabited

inductive TypeTest where
  | null
  | int
  | float
  | bool
  | str
  | list
  | dict
  | tuple
  | set
  | kw
  | func
  deriving DecidableEq, Repr, Inhabited

/-- The builtins that evaluate all their arguments before anything else. -/
inductive StrictOp where
  | arith (op : Arith)
  | list
  | tuple
  | set
  | len
  | slice
  | cat
  | intoList
  | intoTuple
  | intoDict
  | intoSet
  | str
  | kw
  | split
  deriving DecidableEq, Repr, Inhabited

inductive Builtin where
  | quote
  | eval
  | sequence
  | cond
  | and
  | or
  | not
  | define
  | undefine
  | isDefined
  | function
  | defineFunction
  | thread
  | each
  | dict
  | contains
  | get
  | put
  | del
  | strict (op : StrictOp)
  | relation (r : Relation)
  | test (t : TypeTest) (negated : Bool)
  /-- The stored accumulator of a tally. -/
  | getTally
  /-- Notes the representations of its arguments in the journal. -/
  | probe
  /-- Always fails. -/
  | raise
  deriving DecidableEq, Repr, Inhabited

def Arith.name : Arith → String
  | .add => "+"
  | .sub => "-"
  | .mul => "*"
  | .div => "/"

def Relation.name : Relation → String
  | .eq => "="
  | .ne => "!="
  | .lt => "<"
  | .le => "<="
  | .gt => ">"
  | .ge => ">="

def TypeTest.name : TypeTest → String
  | .null => "null"
  | .int => "int"
  | .float => "float"
  | .bool => "bool"
  | .str => "str"
  | .list => "list"
  | .dict => "dict"
  | .tuple => "tuple"
  | .set => "set"
  | .kw => "kw"
  | .func => "func"

def TypeTest.all : List TypeTest :=
  [.null, .int, .float, .bool, .str, .list, .dict, .tuple, .set, .kw, .func]

def StrictOp.name : StrictOp → String
  | .arith op => op.name
  | .list => "list"
  | .tuple => "tuple"
  | .set => "set"
  | .len => "len"
  | .slice => "slice"
  | .cat => "cat"
  | .intoList => "into_list"
  | .intoTuple => "into_tuple"
  | .intoDict => "into_dict"
  | .intoSet => "into_set"
  | .str => "str"
  | .kw => "kw"
  | .split => "split"

namespace Builtin

def name : Builtin → String
  | .quote => "quote"
  | .eval => "eval"
  | .sequence => "do"
  | .cond => "if"
  | .and => "and"
  | .or => "or"
  | .not => "not"
  | .define => "def"
  | .undefine => "undef"
  | .isDefined => "def?"
  | .function => "fn"
  | .defineFunction => "defn"
  | .thread => "->"
  | .each => "for"
  | .dict => "dict"
  | .contains => "in"
  | .get => "get"
  | .put => "put"
  | .del => "del"
  | .strict op => op.name
  | .relation r => r.name
  | .test t negated => (if negated then "not_" else "") ++ t.name ++ "?"
  | .getTally => "get_tally"
  | .probe => "probe"
  | .raise => "raise"

def all : List Builtin :=
  [.quote, .eval, .sequence, .cond, .and, .or, .not, .define, .undefine, .isDefined, .function,
    .defineFunction, .thread, .each, .dict, .contains, .get, .put, .del]
  ++ [StrictOp.arith .add, .arith .sub, .arith .mul, .arith .div, .list, .tuple, .set, .len,
      .slice, .cat, .intoList, .intoTuple, .intoDict, .intoSet, .str, .kw, .split].map .strict
  ++ [Relation.eq, .ne, .lt, .le, .gt, .ge].map .relation
  ++ TypeTest.all.map (.test · false)
  ++ TypeTest.all.map (.test · true)

def ofName? (name : String) : Option Builtin := all.find? (·.name = name)

/-- The names of the builtins of the language, sorted. -/
def names : List String := (all.map name).mergeSort (· ≤ ·)

end Builtin

end EventTally
