import Mathlib.Order.Monotone.Basic
import EventTally.Eval.Recursor

/-! # Values with other references

A renaming gives every object of a heap another number. It acts on whatever refers to objects: values,
code, places and the contents of objects.
-/

namespace EventTally

structure Renaming where
  lists : Nat → Nat
  dicts : Nat → Nat
  sets : Nat → Nat
  closures : Nat → Nat
  layers : Nat → Nat

namespace Renaming

variable (ρ : Renaming)

def list (r : ListRef) : ListRef := ⟨ρ.lists r.id⟩

def dict (r : DictRef) : DictRef := ⟨ρ.dicts r.id⟩

def set (r : SetRef) : SetRef := ⟨ρ.sets r.id⟩

def closure (r : ClosureRef) : ClosureRef := ⟨ρ.closures r.id⟩

def scope (s : ScopeRef) : ScopeRef := ⟨ρ.layers s.id⟩

/-- Older objects have smaller numbers, as before, and the layer of builtins is still the first. -/
structure Ordered : Prop where
  lists : StrictMono ρ.lists
  dicts : StrictMono ρ.dicts
  sets : StrictMono ρ.sets
  closures : StrictMono ρ.closures
  layers : StrictMono ρ.layers
  builtins : ρ.scope Heap.builtinScope = Heap.builtinScope

def ref : Ref → Ref
  | .list r => .list (ρ.list r)
  | .dict r => .dict (ρ.dict r)
  | .set r => .set (ρ.set r)
  | .closure r => .closure (ρ.closure r)

mutual

def value : Value → Value
  | .atom a => .atom a
  | .tuple vs => .tuple (values vs)
  | .list r => .list (ρ.list r)
  | .dict r => .dict (ρ.dict r)
  | .set r => .set (ρ.set r)
  | .builtin b => .builtin b
  | .closure r => .closure (ρ.closure r)

def values : List Value → List Value
  | [] => []
  | v :: vs => value v :: values vs

end

mutual

def code : Code → Code
  | .value v => .value (ρ.value v)
  | .form cs => .form (codes cs)
  | .slot r i => .slot (ρ.list r) i

def codes : List Code → List Code
  | [] => []
  | c :: cs => code c :: codes cs

end

def place : Place → Place
  | .value v => .value (ρ.value v)
  | .slot r i => .slot (ρ.list r) i

/-- An entry of a dict. -/
def entry (e : Value × Value) : Value × Value := (ρ.value e.1, ρ.value e.2)

def codeEntry (e : Value × Code) : Value × Code := (ρ.value e.1, ρ.code e.2)

def binding (b : String × Value) : String × Value := (b.1, ρ.value b.2)

def cell (c : ListCell) : ListCell := { slots := c.slots.map ρ.value, size := c.size }

def function (c : Closure) : Closure :=
  { pattern := ρ.code c.pattern, body := ρ.code c.body, scope := ρ.scope c.scope, name := c.name }

def layer (l : Layer) : Layer :=
  { bindings := l.bindings.map ρ.binding, hidden := l.hidden, base := l.base.map ρ.scope }

variable {ρ}

theorem values_eq_map (vs : List Value) : ρ.values vs = vs.map ρ.value := by
  induction vs with
  | nil => rfl
  | cons v vs ih => rw [values, ih, List.map_cons]

theorem codes_eq_map (cs : List Code) : ρ.codes cs = cs.map ρ.code := by
  induction cs with
  | nil => rfl
  | cons c cs ih => rw [codes, ih, List.map_cons]

theorem value_tuple (vs : List Value) : ρ.value (.tuple vs) = .tuple (vs.map ρ.value) := by
  rw [value, values_eq_map]

theorem code_form (cs : List Code) : ρ.code (.form cs) = .form (cs.map ρ.code) := by
  rw [code, codes_eq_map]

theorem kind_value (v : Value) : (ρ.value v).kind = v.kind := by
  cases v <;> rfl

mutual

theorem refs_value (v : Value) : (ρ.value v).refs = v.refs.map ρ.ref := by
  match v with
  | .atom a => rfl
  | .builtin b => rfl
  | .tuple vs => exact refs_values vs
  | .list r => rfl
  | .dict r => rfl
  | .set r => rfl
  | .closure r => rfl

theorem refs_values (vs : List Value) : Value.refsAll (ρ.values vs) = (Value.refsAll vs).map ρ.ref := by
  match vs with
  | [] => rfl
  | v :: vs => rw [values, Value.refsAll, Value.refsAll, refs_value v, refs_values vs, List.map_append]

end

mutual

theorem code_ofExpr (e : Expr) : ρ.code (Code.ofExpr e) = Code.ofExpr e := by
  match e with
  | .atom a => rfl
  | .form es => rw [Code.ofExpr, code, codes_ofExprs es]

theorem codes_ofExprs (es : List Expr) : ρ.codes (Code.ofExprs es) = Code.ofExprs es := by
  match es with
  | [] => rfl
  | e :: es => rw [Code.ofExprs, codes, code_ofExpr e, codes_ofExprs es]

end

end Renaming

end EventTally
