import EventTally.Proofs.Computation
import EventTally.Proofs.Scope
import EventTally.Proofs.Source.RoundTrip
import EventTally.Proofs.Tally.Lineage

/-! # Expansion through a chain of templates

Expanding a rule goes from a template to its last ancestor. At each level the parameters are checked,
the body is evaluated in a scope that holds them and nothing else over the builtins, and the entries of
the dict it gives are the parameters of the next level.
-/

namespace EventTally

namespace Keyed

end Keyed

namespace Heap

end Heap

namespace Template

variable {b : Blueprint} {bs chain : List Blueprint} {ts : List Template}
  {params fields out : List (String × Value)} {w w₁ w' : World}

end Template

end EventTally
