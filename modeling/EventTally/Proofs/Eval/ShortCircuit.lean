import EventTally.Proofs.Eval.EarlyStop
import EventTally.Proofs.Heap.Finite

/-! # What calls that stop early mean

A comparison is true if its arguments form a chain, `in` if the collection has all elements, `and`, `or`
and `not` tell whether there is an argument with a given truth value. Values are seen as they are when they
are tested, that is, after the arguments up to there and before any later one. Comparing values that
contain themselves may have no end, and then the call has none.
-/

namespace EventTally

namespace EvalM

end EvalM

namespace Heap

variable {h : Heap} {elem : Value}

end Heap

/-- The relation holds between data. The relations of order need data that have one. -/
def Relation.Holds (rel : Relation) (d d' : Datum) : Prop :=
  match rel with
  | .eq => d.equal d' = true
  | .ne => d.equal d' = false
  | rel => ∃ o, d.order d' = .ok o ∧ rel.accepts o = true

namespace Criterion

variable {crit : Criterion} {earlier : List Value} {fs : List Finding}

end Criterion

namespace EvalM

variable {r : Recursor} {s : ScopeRef} {crit : Criterion} {w w₁ w' : World} {earlier : List Value}
  {c : Code} {args pre : List Code} {fs : List Finding} {outcome : Except Fault Bool} {b : Builtin}

theorem least_le_one (hb : b.criterion? = some crit) : crit.least ≤ 1 := by
  cases b with
  | relation | contains =>
    cases hb
    exact le_rfl
  | and | or | not | test =>
    cases hb
    exact Nat.zero_le 1
  | _ => cases hb

theorem Decides.run_eq (hb : b.criterion? = some crit) (h : Decides crit r s pre c w outcome w')
    (rest : List Code) :
    (callBuiltin r b (pre ++ c :: rest) s).run w = (outcome.map .bool, w') := by
  obtain ⟨fs, w₁, hfinds, hpass, hend⟩ := h
  have hmany : crit.least ≤ (pre ++ c :: rest).length := by
    have := least_le_one hb
    rw [List.length_append, List.length_cons]
    omega
  have hjudge := judge_of_finds hfinds hpass (c :: rest)
  rw [List.nil_append, judge_of_ends hend rest] at hjudge
  rw [run_callBuiltin hb hmany, hjudge]
  rfl

theorem Finds.run_eq (hb : b.criterion? = some crit) (hmany : crit.least ≤ args.length)
    (h : Finds r s args w fs w') (hpass : crit.AllPass [] fs) :
    (callBuiltin r b args s).run w = (.ok (.bool crit.result), w') := by
  have hjudge := judge_of_finds h hpass []
  rw [List.append_nil] at hjudge
  rw [run_callBuiltin hb hmany, hjudge]
  rfl

/-- An argument has the given truth value, and no argument before it does. It is the last one that is
evaluated. -/
def Meets (stop : Bool) (r : Recursor) (s : ScopeRef) (args : List Code) (w w' : World) : Prop :=
  ∃ pre c rest fs v w₁, args = pre ++ c :: rest ∧ Finds r s pre w fs w₁ ∧
    (∀ f ∈ fs, f.heap.truthy f.value = !stop) ∧
    (r.eval c s).run w₁ = (.ok v, w') ∧ w'.heap.truthy v = stop

theorem Finds.length_eq (h : Finds r s args w fs w') : fs.length = args.length := by
  induction h with
  | nil => rfl
  | cons _ _ ih => rw [List.length_cons, List.length_cons, ih]

end EvalM

end EventTally
