import EventTally.Atom

/-! # Source trees

A source tree is an atom or a form, a parenthesised sequence of trees. Brackets, quotes and
spreads are sugar for forms with a leading symbol.
-/

namespace EventTally

inductive Expr where
  | atom (a : Atom)
  | form (elems : List Expr)
  deriving Inhabited

namespace Expr

@[match_pattern] abbrev sym (name : String) : Expr := .atom (.sym name)

/-- The form `(name e…)`. -/
def tagged (name : String) (elems : List Expr) : Expr := .form (sym name :: elems)

/-- The elements of a form that starts with the symbol `name`, without that symbol. -/
def untag? (name : String) : Expr → Option (List Expr)
  | .form (.atom (.sym s) :: elems) => if s = name then some elems else none
  | _ => none

@[simp] theorem untag?_tagged (name : String) (elems : List Expr) :
    (tagged name elems).untag? name = some elems := by
  simp [tagged, untag?]

/-- `'e` is short for `(quote e)`. -/
def quoted (e : Expr) : Expr := tagged "quote" [e]

/-- `^e` is short for `(quote (unquote e))`. -/
def pinned (e : Expr) : Expr := tagged "quote" [tagged "unquote" [e]]

mutual

/-- Same shape and same atoms, doubles by their bits. -/
def same : Expr → Expr → Bool
  | .atom a, .atom b => a.same b
  | .form xs, .form ys => sameAll xs ys
  | _, _ => false

def sameAll : List Expr → List Expr → Bool
  | [], [] => true
  | x :: xs, y :: ys => same x y && sameAll xs ys
  | _, _ => false

end

end Expr

inductive Bracket where
  | list
  | tuple
  | dict
  | set
  deriving DecidableEq, Repr, Inhabited

namespace Bracket

def all : List Bracket := [.list, .tuple, .dict, .set]

/-- The head of the form that a literal without spreads stands for. -/
def tag : Bracket → String
  | .list => "list"
  | .tuple => "tuple"
  | .dict => "dict"
  | .set => "set"

/-- The head of the form that a literal with spreads stands for. -/
def intoTag : Bracket → String
  | .list => "into_list"
  | .tuple => "into_tuple"
  | .dict => "into_dict"
  | .set => "into_set"

def opener : Bracket → String
  | .list => "["
  | .tuple => "\x7b"
  | .dict => "#\x7b"
  | .set => "#["

def closer : Bracket → String
  | .list => "]"
  | .tuple => "\x7d"
  | .dict => "\x7d"
  | .set => "]"

def ofTag? (name : String) : Option Bracket := all.find? (·.tag = name)

def ofIntoTag? (name : String) : Option Bracket := all.find? (·.intoTag = name)

end Bracket

end EventTally
