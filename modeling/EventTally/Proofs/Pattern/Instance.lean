import EventTally.Proofs.Datum.Keys
import EventTally.Source.Parser

/-! # Patterns and their instances

A pattern is made of symbols, scalars and collection literals, each with a spread of a symbol at its end
or without one. An assignment of data to the symbols turns a pattern into a datum, its instance. The
symbol `_` stands for any datum wherever it occurs, and a spread for the elements that its literal does
not name.
-/

namespace EventTally

structure Scalar where
  atom : Atom
  notSymbol : ∀ x, atom ≠ .sym x

namespace Scalar

def datum (a : Scalar) : Datum := .atom a.atom

def expr (a : Scalar) : Expr := .atom a.atom

def distinct (as : List Scalar) : List Atom :=
  as.foldl (fun acc a => Keyed.insertElem (fun b => a.datum.sameKey (.atom b)) a.atom acc) []

end Scalar

/-- The last part of a literal is the symbol that is spread there. -/
inductive Pattern where
  | sym (x : String)
  | literal (a : Scalar)
  | list (elems : List Pattern) (rest : Option String)
  | tuple (elems : List Pattern) (rest : Option String)
  | dict (entries : List (Scalar × Pattern)) (rest : Option String)
  | set (elems : List Scalar) (rest : Option String)

namespace Pattern

/-- The elements of a literal, a spread symbol last. -/
def items (es : List Expr) (rest : Option String) : List Item :=
  es.map (⟨·, false⟩) ++ rest.toList.map (⟨.sym ·, true⟩)

mutual

def expr : Pattern → Expr
  | .sym x => .sym x
  | .literal a => a.expr
  | .list ps rest => Bracket.list.desugar (items (exprs ps) rest)
  | .tuple ps rest => Bracket.tuple.desugar (items (exprs ps) rest)
  | .dict es rest => Bracket.dict.desugar (items (entryExprs es) rest)
  | .set as rest => Bracket.set.desugar (items (as.map Scalar.expr) rest)

def exprs : List Pattern → List Expr
  | [] => []
  | p :: ps => p.expr :: exprs ps

def entryExprs : List (Scalar × Pattern) → List Expr
  | [] => []
  | (k, p) :: es => k.expr :: p.expr :: entryExprs es

end

def bound (x : String) : List String := if x = "_" then [] else [x]

mutual

/-- The names that a pattern binds, in the order of their places. -/
def names : Pattern → List String
  | .sym x => bound x
  | .literal _ => []
  | .list ps rest | .tuple ps rest => namesAll ps ++ rest.toList.flatMap bound
  | .dict es rest => entryNames es ++ rest.toList.flatMap bound
  | .set _ rest => rest.toList.flatMap bound

def namesAll : List Pattern → List String
  | [] => []
  | p :: ps => p.names ++ namesAll ps

def entryNames : List (Scalar × Pattern) → List String
  | [] => []
  | (_, p) :: es => p.names ++ entryNames es

end

/-- In every dict of a pattern no two keys are equal. -/
inductive Proper : Pattern → Prop
  | sym (x : String) : Proper (.sym x)
  | literal (a : Scalar) : Proper (.literal a)
  | list {ps : List Pattern} {rest : Option String} (h : ∀ p ∈ ps, Proper p) : Proper (.list ps rest)
  | tuple {ps : List Pattern} {rest : Option String} (h : ∀ p ∈ ps, Proper p) : Proper (.tuple ps rest)
  | dict {es : List (Scalar × Pattern)} {rest : Option String}
      (hkeys : es.Pairwise fun e e' => e.1.atom.equal e'.1.atom = false)
      (h : ∀ e ∈ es, Proper e.2) : Proper (.dict es rest)
  | set (as : List Scalar) (rest : Option String) : Proper (.set as rest)

/-- Where elements stand for a spread, its symbol is assigned the collection of them; where there is
no spread there are none. -/
def Spreads {α : Type} (τ : String → Datum) (collection : List α → Datum) (left : List α) :
    Option String → Prop
  | none => left = []
  | some x => x ≠ "_" → τ x = collection left

/-- The assignment turns the pattern into the datum. -/
inductive Instance (τ : String → Datum) : Pattern → Datum → Prop
  | name {x : String} (hx : x ≠ "_") : Instance τ (.sym x) (τ x)
  | wildcard (d : Datum) : Instance τ (.sym "_") d
  | literal (a : Scalar) : Instance τ (.literal a) a.datum
  | list {ps : List Pattern} {ds left : List Datum} {rest : Option String}
      (hlength : ps.length = ds.length) (h : ∀ e ∈ ps.zip ds, Instance τ e.1 e.2)
      (hrest : Spreads τ .list left rest) : Instance τ (.list ps rest) (.list (ds ++ left))
  | tuple {ps : List Pattern} {ds left : List Datum} {rest : Option String}
      (hlength : ps.length = ds.length) (h : ∀ e ∈ ps.zip ds, Instance τ e.1 e.2)
      (hrest : Spreads τ .tuple left rest) : Instance τ (.tuple ps rest) (.tuple (ds ++ left))
  /-- A spread dict has none of the keys that the literal names. -/
  | dict {es : List (Scalar × Pattern)} {ds : List Datum} {left : List (Datum × Datum)}
      {rest : Option String} (hlength : es.length = ds.length)
      (h : ∀ e ∈ es.zip ds, Instance τ e.1.2 e.2) (hrest : Spreads τ .dict left rest)
      (hleft : ∀ e ∈ es, ∀ l ∈ left, e.1.datum.sameKey l.1 = false) :
      Instance τ (.dict es rest) (.dict ((es.map fun e => e.1.datum).zip ds ++ left))
  /-- A spread set has none of the members that the literal names. -/
  | set {as : List Scalar} {left : List Datum} {rest : Option String}
      (hrest : Spreads τ .set left rest)
      (hleft : ∀ a ∈ Scalar.distinct as, ∀ l ∈ left, (Datum.atom a).sameKey l = false) :
      Instance τ (.set as rest) (.set ((Scalar.distinct as).map .atom ++ left))

end Pattern

/-- A datum is a part of another, or what is left of a collection in it, as a collection of the same
kind. -/
inductive Datum.TakenFrom (d : Datum) : Datum → Prop
  | part {p : Datum} (h : PartOf p d) : TakenFrom d p
  | list {ds left : List Datum} (h : PartOf (.list ds) d) (hleft : left <:+ ds) :
      TakenFrom d (.list left)
  | tuple {ds left : List Datum} (h : PartOf (.tuple ds) d) (hleft : left <:+ ds) :
      TakenFrom d (.tuple left)
  | dict {es left : List (Datum × Datum)} (h : PartOf (.dict es) d) (hleft : left.Sublist es) :
      TakenFrom d (.dict left)
  | set {ds left : List Datum} (h : PartOf (.set ds) d) (hleft : left.Sublist ds) :
      TakenFrom d (.set left)

theorem Datum.TakenFrom.mono {d d' x : Datum} (h : TakenFrom d x) (hpart : ∀ p, PartOf p d → PartOf p d') :
    TakenFrom d' x := by
  cases h with
  | part hd => exact .part (hpart _ hd)
  | list hd hleft => exact .list (hpart _ hd) hleft
  | tuple hd hleft => exact .tuple (hpart _ hd) hleft
  | dict hd hleft => exact .dict (hpart _ hd) hleft
  | set hd hleft => exact .set (hpart _ hd) hleft

end EventTally
