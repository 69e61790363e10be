import EventTally.Heap
import EventTally.Keyed

/-! # Scopes

A scope is a chain of layers. A name is looked up in the layer, then in its base, and so on; a
layer can hide names of its base. Changes to a layer never touch its base. A layer is always newer
than its base, so every chain ends.
-/

namespace EventTally.Heap

def layer (h : Heap) (s : ScopeRef) : Layer :=
  h.layers[s.id]?.getD { bindings := [], hidden := [], base := none }

def localValue (h : Heap) (s : ScopeRef) (name : String) : Option Value :=
  Keyed.find? (· == name) (h.layer s).bindings

def hides (h : Heap) (s : ScopeRef) (name : String) : Bool := (h.layer s).hidden.contains name

/-- The value of a name: the binding of the layer, else that of its base unless it is hidden. -/
def lookup (h : Heap) (s : ScopeRef) (name : String) : Option Value :=
  match h.localValue s name with
  | some v => some v
  | none =>
    if h.hides s name then none
    else
      match (h.layer s).base with
      | none => none
      | some b => if b.id < s.id then h.lookup b name else none
termination_by s.id

def child (h : Heap) (s : ScopeRef) : ScopeRef × Heap :=
  (⟨h.layers.size⟩,
    { h with layers := h.layers.push { bindings := [], hidden := [], base := some s } })

/-- Binds a name in a layer. -/
def bind (h : Heap) (s : ScopeRef) (name : String) (v : Value) : Heap :=
  { h with layers := h.layers.modify s.id fun l =>
      { l with bindings := Keyed.insert (· == name) name v l.bindings } }

def bindAll (h : Heap) (s : ScopeRef) (bindings : List (String × Value)) : Heap :=
  bindings.foldl (fun h (name, v) => h.bind s name v) h

def baseShows (h : Heap) (s : ScopeRef) (name : String) : Bool :=
  match (h.layer s).base with
  | none => false
  | some b => (h.lookup b name).isSome

/-- Makes a name invisible in a layer: its own binding goes, and if the base shows the name it is
hidden. -/
def unbind (h : Heap) (s : ScopeRef) (name : String) : Heap :=
  let hide := h.baseShows s name
  { h with layers := h.layers.modify s.id fun l =>
      { l with
        bindings := Keyed.erase (· == name) l.bindings
        hidden := if hide && !l.hidden.contains name then name :: l.hidden else l.hidden } }

def localNames (h : Heap) (s : ScopeRef) : List String :=
  ((h.layer s).bindings.map (·.1)).mergeSort (· ≤ ·)

def namesBeyond (h : Heap) (seen : List String) (s : ScopeRef) : List String :=
  let l := h.layer s
  let own := (l.bindings.map (·.1)).filter (!seen.contains ·)
  match l.base with
  | none => own
  | some b =>
    if b.id < s.id then own ++ h.namesBeyond (own ++ l.hidden ++ seen) b else own
termination_by s.id

/-- The names that a scope shows, sorted. -/
def names (h : Heap) (s : ScopeRef) : List String := (h.namesBeyond [] s).mergeSort (· ≤ ·)

end EventTally.Heap
