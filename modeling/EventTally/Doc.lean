import EventTally.Builtin

/-! # Documentation of builtins

One line for each builtin of the language and for the one that gives access to stored tallies.
-/

namespace EventTally.Builtin

def controlDoc : Builtin → Option String
  | .quote => "(quote x): returns x unevaluated, evaluating (unquote y) forms inside it"
  | .eval => "(eval x): evaluates x, then evaluates the result"
  | .sequence => "(do x...): evaluates each x in order and returns the last value"
  | .cond => "(if cond then [else]): evaluates then if cond is truthy, else otherwise"
  | .and => "(and x...): whether all x are truthy, stopping at the first falsy one"
  | .or => "(or x...): whether any x is truthy, stopping at the first truthy one"
  | .not => "(not x...): whether all x are falsy"
  | .define => "(def pattern value): binds value to pattern and returns value"
  | .undefine => "(undef name...): removes names from the environment"
  | .isDefined => "(def? name...): whether all names are defined"
  | .function => "(fn [params...] body...): creates a function"
  | .defineFunction => "(defn name [params...] body...): creates a function and binds it to name"
  | .thread => "(-> x (f a...)...): threads x through forms as their first argument"
  | .each => "(for pattern collection body...): evaluates body for each element"
  | .dict => "(dict k v ...): creates a dict"
  | .contains => "(in collection x...): whether every x is in collection"
  | .get => "(get collection key [default]): the element at key"
  | .put => "(put collection key value): sets the element at key"
  | .del => "(del collection key...): removes the elements at keys and returns the last one"
  | .getTally =>
    "(get_tally name): the stored accumulator of the tally name, which is not evaluated"
  | _ => none

def strictDoc : StrictOp → String
  | .arith .add => "(+ x...): the sum of all x"
  | .arith .sub => "(- x y...): x minus all y"
  | .arith .mul => "(* x...): the product of all x"
  | .arith .div => "(/ x y...): x divided by all y"
  | .list => "(list x...): creates a list"
  | .tuple => "(tuple x...): creates a tuple"
  | .set => "(set x...): creates a set"
  | .len => "(len x...): the total length of all x"
  | .slice => "(slice seq [start] stop [step]): a slice of a list, tuple or string"
  | .cat => "(cat collection...): a list of the elements of all collections"
  | .intoList => "(into_list collection...): a list of the elements of all collections"
  | .intoTuple => "(into_tuple collection...): a tuple of the elements of all collections"
  | .intoDict => "(into_dict collection...): a dict of the key-value pairs of all collections"
  | .intoSet => "(into_set collection...): a set of the elements of all collections"
  | .str => "(str x...): concatenates x as strings"
  | .kw => "(kw x...): concatenates x as a symbol"
  | .split => "(split s sep): splits s around sep"

def relationDoc : Relation → String
  | .eq => "(= x...): whether adjacent arguments are equal"
  | .ne => "(!= x...): whether adjacent arguments are not equal"
  | .lt => "(< x...): whether arguments are strictly increasing"
  | .le => "(<= x...): whether arguments are non-decreasing"
  | .gt => "(> x...): whether arguments are strictly decreasing"
  | .ge => "(>= x...): whether arguments are non-increasing"

def testDoc (t : TypeTest) (negated : Bool) : String :=
  if negated then
    "(not_" ++ t.name ++ "? x...): whether not all x are of kind " ++ t.name
  else "(" ++ t.name ++ "? x...): whether all x are of kind " ++ t.name

def doc? : Builtin → Option String
  | .strict op => strictDoc op
  | .relation r => relationDoc r
  | .test t negated => testDoc t negated
  | b => controlDoc b

def docOf? (name : String) : Option String :=
  ((all ++ [Builtin.getTally]).find? fun b => b.name = name).bind doc?

end EventTally.Builtin
