import EventTally.Heap
import EventTally.Proofs.Pattern.Instance
import EventTally.Proofs.Source.RoundTrip

/-! # The code of patterns

A pattern is source code like any other. A literal without a spread is the form of its elements; one with
a spread is the form of a chunk of its elements, if it has any, and the symbol.
-/

namespace EventTally

theorem Code.ofExprs_eq_map (es : List Expr) : Code.ofExprs es = es.map Code.ofExpr := by
  induction es with
  | nil => rw [Code.ofExprs, List.map_nil]
  | cons e es ih => rw [Code.ofExprs, ih, List.map_cons]

theorem Code.ofExpr_tagged (name : String) (es : List Expr) :
    Code.ofExpr (Expr.tagged name es) = .form (.sym name :: es.map Code.ofExpr) := by
  rw [Expr.tagged, Code.ofExpr, Code.ofExprs_eq_map, List.map_cons, Code.ofExpr]

namespace Pattern

theorem desugar_items_none (b : Bracket) (es : List Expr) :
    b.desugar (items es none) = Expr.tagged b.tag es := by
  rw [items, Option.toList_none, List.map_nil, List.append_nil]
  exact Bracket.desugar_plain b es

theorem desugar_items_some (b : Bracket) (es : List Expr) (x : String) :
    b.desugar (items es (some x)) = Expr.tagged b.intoTag (b.chunk es ++ [.sym x]) := by
  rw [Bracket.desugar, items, Bracket.children_plain]
  rfl

def code (P : Pattern) : Code := .ofExpr P.expr

theorem code_sym (x : String) : (Pattern.sym x).code = .sym x := by
  rw [code, expr, Code.ofExpr]

theorem exprs_eq_map (ps : List Pattern) : exprs ps = ps.map expr := by
  induction ps with
  | nil => rw [exprs, List.map_nil]
  | cons p ps ih => rw [exprs, ih, List.map_cons]

/-- The code of the keys and values of a dict pattern in turn. -/
def entryCodes (es : List (Scalar × Pattern)) : List Code := (entryExprs es).map Code.ofExpr

theorem entryCodes_cons (k : Scalar) (p : Pattern) (es : List (Scalar × Pattern)) :
    entryCodes ((k, p) :: es) = .value (.atom k.atom) :: p.code :: entryCodes es := by
  rw [entryCodes, entryExprs, List.map_cons, List.map_cons, Scalar.expr, Code.ofExpr]
  rfl

mutual

/-- The fuel that suffices to match a pattern. -/
def fuel : Pattern → Nat
  | .sym _ => 1
  | .literal _ => 2
  | .list ps _ | .tuple ps _ => fuelAll ps + 1
  | .dict es _ => entryFuel es + 1
  | .set _ _ => 2

def fuelAll : List Pattern → Nat
  | [] => 1
  | p :: ps => max p.fuel (fuelAll ps)

def entryFuel : List (Scalar × Pattern) → Nat
  | [] => 1
  | (_, p) :: es => max p.fuel (entryFuel es)

end

theorem le_fuelAll (ps : List Pattern) : 1 ≤ fuelAll ps ∧ ∀ p ∈ ps, p.fuel ≤ fuelAll ps := by
  induction ps with
  | nil => exact ⟨by rw [fuelAll], nofun⟩
  | cons p ps ih =>
    rw [fuelAll]
    refine ⟨ih.1.trans (Nat.le_max_right _ _), List.forall_mem_cons.mpr ⟨Nat.le_max_left _ _, ?_⟩⟩
    exact fun q hq => (ih.2 q hq).trans (Nat.le_max_right _ _)

theorem le_entryFuel (es : List (Scalar × Pattern)) :
    1 ≤ entryFuel es ∧ ∀ e ∈ es, e.2.fuel ≤ entryFuel es := by
  induction es with
  | nil => exact ⟨by rw [entryFuel], nofun⟩
  | cons e es ih =>
    rw [entryFuel]
    refine ⟨ih.1.trans (Nat.le_max_right _ _), List.forall_mem_cons.mpr ⟨Nat.le_max_left _ _, ?_⟩⟩
    exact fun e' he' => (ih.2 e' he').trans (Nat.le_max_right _ _)

end Pattern

end EventTally
