import EventTally.Proofs.Eval.Listing
import EventTally.Proofs.Eval.Program
import EventTally.Proofs.Eval.Yields
import EventTally.Proofs.Renaming.Beside

/-! # Quoted code

`(quote e)` makes lists of the forms of `e`, and nothing else refers to them. So evaluating the copy does
what evaluating `e` does (`eval_quoted`): running lists is running the source code that they stand for,
and the additional lists are only further objects in the heap.
-/

namespace EventTally

namespace Listing

/-- The lists that are made of a tree. -/
def copy (h : Heap) (e : Expr) : Listing where
  heap := (h.thaw (.ofExpr e)).2
  first := h.lists.size
  planted := (h.planted_size.thaw le_rfl e).1

def root (h : Heap) (e : Expr) : Value := (h.thaw (.ofExpr e)).1

section

variable {L : Listing} {h : Heap} (hfirst : h.lists.size ≤ L.first)
include hfirst

end

variable {h : Heap} (hclosed : h.Closed) (e : Expr)
include hclosed

end Listing

/-- Two outcomes are the same up to the numbers of objects: the values, what is in scopes and collections,
and what values are seen as. The fault of the second is `frame` of that of the first. -/
structure SameOutcome (frame : Fault → Fault) (ρ : Renaming) (x y : Except Fault Value × World) :
    Prop where
  result : Matched (fun v v' => v' = ρ.value v ∧ y.2.heap.datum v' = x.2.heap.datum v)
    (fun f f' => f' = frame f) x.1 y.1
  names : ∀ s name, y.2.heap.lookup (ρ.scope s) name = (x.2.heap.lookup s name).map ρ.value
  lists : ∀ r, y.2.heap.elems (ρ.list r) = (x.2.heap.elems r).map ρ.value
  dicts : ∀ r, y.2.heap.entries (ρ.dict r) = (x.2.heap.entries r).map ρ.entry
  sets : ∀ r, y.2.heap.members (ρ.set r) = (x.2.heap.members r).map ρ.value
  data : ∀ v, x.2.heap.HasValue v → y.2.heap.datum (ρ.value v) = x.2.heap.datum v
  journal : y.2.journal = x.2.journal
  tallies : ∀ name, y.2.store.tallyText? name = x.2.store.tallyText? name

theorem SameOutcome.within {ρ : Renaming} {x y : Except Fault Value × World} (h : SameOutcome id ρ x y)
    (name : String) :
    SameOutcome (·.within name) ρ x (y.1.mapError (·.within name), y.2) := by
  refine { h with result := ?_ }
  have hresult := h.result
  revert hresult
  cases x.1 <;> cases y.1 <;> intro hresult
  · exact congrArg (Fault.within name) hresult
  · exact hresult
  · exact hresult
  · exact hresult

/-- The second world is like the first but for a listing: it may stand in the code of functions where
those of the first have source code. -/
structure Listing.Echoes (L : Listing) (ρ : Renaming) (w w' : World) : Prop where
  guards : Heap.Guards L.cells w'.heap
  beside : Beside ρ w (L.recoding.world w')

theorem Listing.Echoes.resumed {L : Listing} {ρ : Renaming} {x y : Except Fault Value × World}
    (hecho : L.Echoes ρ x.2 y.2)
    (hmatch : Matched (fun v v' => x.2.heap.HasValue v ∧ v' = ρ.value v) Eq x.1 y.1) :
    ∃ ρ', Renaming.Agree ρ ρ' x.2.heap ∧ L.Echoes ρ' x.2 y.2 ∧ SameOutcome id ρ' x y := by
  have hrecoded := L.faithful.recoded hecho.guards
  have hbeside := hecho.beside.resumed
  have himage := hecho.beside.image x.2.heap
  have hagree := ρ.agree_resume x.2.heap (L.recoding.heap y.2.heap)
  have hdatum {v : Value} (hv : x.2.heap.HasValue v) :
      y.2.heap.datum ((ρ.resume x.2.heap (L.recoding.heap y.2.heap)).value v) = x.2.heap.datum v := by
    rw [← hrecoded.datum]
    exact hbeside.datum hv
  refine ⟨_, hagree, ⟨hecho.guards, hbeside⟩, ?_⟩
  constructor
  · refine hmatch.imp (fun v v' _ hv => ?_) fun f f' h => h.symm
    rw [hv.2, ← hagree.value hv.1]
    exact ⟨rfl, hdatum hv.1⟩
  · intro s name
    rw [← hrecoded.lookup]
    exact himage.lookup s name
  · intro r
    rw [← hrecoded.elems]
    exact himage.elems r
  · intro r
    rw [← hrecoded.entries]
    exact himage.entries r
  · intro r
    rw [← hrecoded.members]
    exact himage.members r
  · exact fun v hv => hdatum hv
  · exact hecho.beside.journal
  · exact hecho.beside.tallies

namespace EvalM

variable {L : Listing} {ρ : Renaming} {w w' : World} {s s' : ScopeRef} {e : Expr}

end EvalM

end EventTally
