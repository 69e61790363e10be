import EventTally.Proofs.Eval.Yields

/-! # Calls that stop early

Comparisons, logical connectives, `in` and the type predicates go through their arguments in one and the
same way: from left to right as long as each passes a test (`judge`). Only the test, and the result if all
arguments pass, are those of the builtin (`Builtin.criterion?`). So the first argument that does not pass,
or whose evaluation or test fails, ends the call, and later arguments have no part in it.
-/

namespace EventTally

/-- The value of an argument, and the heap right after its evaluation. -/
structure Finding where
  value : Value
  heap : Heap

/-- What a call that stops early asks of its arguments. -/
structure Criterion where
  /-- How many arguments there have to be. -/
  least : Nat
  /-- Whether an argument passes after those that had the given values; none if testing it has no end. -/
  passes : List Value → Finding → Option (Except Reason Bool)
  /-- The result if all arguments pass. If one does not, it is the other one. -/
  result : Bool

namespace Criterion

/-- Every argument stands in the relation to the one before it. -/
def adjacent (rel : Relation) : Criterion where
  least := 1
  passes earlier f :=
    match earlier.getLast? with
    | none => some (.ok true)
    | some v => f.heap.relate? rel v f.value
  result := true

def containment : Criterion where
  least := 1
  passes earlier f :=
    match earlier.head? with
    | none => some (.ok true)
    | some col => EvalM.contains f.heap col f.value
  result := true

def truth (stop result : Bool) : Criterion where
  least := 0
  passes _ f := some (.ok (f.heap.truthy f.value != stop))
  result := result

/-- Every argument is of the kind that is tested for. -/
def kind (t : TypeTest) (negated : Bool) : Criterion where
  least := 0
  passes _ f := some (.ok (t.holds f.value))
  result := !negated

theorem passes_adjacent (rel : Relation) (earlier : List Value) (v : Value) (f : Finding) :
    (adjacent rel).passes (earlier ++ [v]) f = f.heap.relate? rel v f.value := by
  simp only [adjacent, List.getLast?_concat]

/-- All arguments pass, after those that had the values `earlier`. -/
def AllPass (crit : Criterion) : List Value → List Finding → Prop
  | _, [] => True
  | earlier, f :: fs => crit.passes earlier f = some (.ok true) ∧ crit.AllPass (earlier ++ [f.value]) fs

end Criterion

/-- The criteria of the builtins that stop early. -/
def Builtin.criterion? : Builtin → Option Criterion
  | .relation rel => some (.adjacent rel)
  | .contains => some .containment
  | .and => some (.truth false true)
  | .or => some (.truth true false)
  | .not => some (.truth true true)
  | .test t negated => some (.kind t negated)
  | _ => none

example : ((Builtin.all.filter (·.criterion?.isSome)).map Builtin.name).take 13 =
    ["and", "or", "not", "in", "=", "!=", "<", "<=", ">", ">=", "null?", "int?", "float?"] := by
  decide

namespace EvalM

variable {r : Recursor} {s : ScopeRef} {crit : Criterion} {w w₁ w₂ w' : World} {earlier : List Value}
  {c : Code} {args pre cs : List Code} {fs : List Finding} {outcome : Except Fault Bool} {b : Builtin}

/-- The arguments are evaluated from left to right, each once. -/
inductive Finds (r : Recursor) (s : ScopeRef) : List Code → World → List Finding → World → Prop
  | nil (w : World) : Finds r s [] w [] w
  | cons {c : Code} {cs : List Code} {v : Value} {fs : List Finding} {w w₁ w₂ : World}
      (hc : (r.eval c s).run w = (.ok v, w₁)) (h : Finds r s cs w₁ fs w₂) :
      Finds r s (c :: cs) w (⟨v, w₁.heap⟩ :: fs) w₂

/-- The evaluation of an argument, or its test, is the last thing that is done. -/
inductive Ends (crit : Criterion) (r : Recursor) (s : ScopeRef) (earlier : List Value) (c : Code)
    (w : World) : Except Fault Bool → World → Prop
  | fault {f : Fault} {w' : World} (hc : (r.eval c s).run w = (.error f, w')) :
      Ends crit r s earlier c w (.error f) w'
  | endless {v : Value} {w' : World} (hc : (r.eval c s).run w = (.ok v, w'))
      (hpasses : crit.passes earlier ⟨v, w'.heap⟩ = none) :
      Ends crit r s earlier c w (.error .exhausted) w'
  | untestable {v : Value} {reason : Reason} {w' : World} (hc : (r.eval c s).run w = (.ok v, w'))
      (hpasses : crit.passes earlier ⟨v, w'.heap⟩ = some (.error reason)) :
      Ends crit r s earlier c w (.error (.raised { reason, trace := [] })) w'
  | failing {v : Value} {w' : World} (hc : (r.eval c s).run w = (.ok v, w'))
      (hpasses : crit.passes earlier ⟨v, w'.heap⟩ = some (.ok false)) :
      Ends crit r s earlier c w (.ok !crit.result) w'

/-- The arguments `pre` pass and `c`, the next one, decides. -/
def Decides (crit : Criterion) (r : Recursor) (s : ScopeRef) (pre : List Code) (c : Code) (w : World)
    (outcome : Except Fault Bool) (w' : World) : Prop :=
  ∃ fs w₁, Finds r s pre w fs w₁ ∧ crit.AllPass [] fs ∧
    Ends crit r s (fs.map Finding.value) c w₁ outcome w'

/-- Tests each argument after those that had the values `earlier`; the first one that does not pass ends
the search. -/
def judge (crit : Criterion) (r : Recursor) (s : ScopeRef) (earlier : List Value) : List Code → EvalM Bool
  | [] => pure crit.result
  | c :: cs => do
    let v ← r.eval c s
    let passed ← ofOption (crit.passes earlier ⟨v, ← heap⟩)
    if ← ofExcept passed then judge crit r s (earlier ++ [v]) cs
    else return !crit.result

theorem run_judge_cons : (judge crit r s earlier (c :: cs)).run w =
    match (r.eval c s).run w with
    | (.error f, w') => (.error f, w')
    | (.ok v, w') =>
      match crit.passes earlier ⟨v, w'.heap⟩ with
      | none => (.error .exhausted, w')
      | some (.error reason) => (.error (.raised { reason, trace := [] }), w')
      | some (.ok true) => (judge crit r s (earlier ++ [v]) cs).run w'
      | some (.ok false) => (.ok !crit.result, w') := by
  rw [judge, run_bind]
  rcases (r.eval c s).run w with ⟨f | v, w'⟩
  · rfl
  · change (ofOption (crit.passes earlier ⟨v, w'.heap⟩) >>= fun passed => ofExcept passed >>= fun b =>
      if b then judge crit r s (earlier ++ [v]) cs else pure !crit.result).run w' = _
    dsimp only
    match crit.passes earlier ⟨v, w'.heap⟩ with
    | none => rfl
    | some (.error reason) => rfl
    | some (.ok true) => rfl
    | some (.ok false) => rfl

theorem judge_of_finds (h : Finds r s pre w fs w₁) (hpass : crit.AllPass earlier fs) (cs : List Code) :
    (judge crit r s earlier (pre ++ cs)).run w =
      (judge crit r s (earlier ++ fs.map Finding.value) cs).run w₁ := by
  induction h generalizing earlier with
  | nil => rw [List.map_nil, List.append_nil, List.nil_append]
  | cons hc _ ih =>
    obtain ⟨hpasses, hrest⟩ := hpass
    rw [List.cons_append, run_judge_cons, hc]
    dsimp only
    rw [hpasses, List.map_cons, List.append_cons earlier _ (List.map _ _)]
    exact ih hrest

theorem judge_of_ends (h : Ends crit r s earlier c w outcome w') (cs : List Code) :
    (judge crit r s earlier (c :: cs)).run w = (outcome, w') := by
  rw [run_judge_cons]
  cases h with
  | fault hc => rw [hc]
  | endless hc hpasses =>
    rw [hc]
    dsimp only
    rw [hpasses]
  | untestable hc hpasses =>
    rw [hc]
    dsimp only
    rw [hpasses]
  | failing hc hpasses =>
    rw [hc]
    dsimp only
    rw [hpasses]

theorem chain_eq (rel : Relation) (earlier : List Value) (left : Value) (cs : List Code) :
    chain r s rel left cs = judge (.adjacent rel) r s (earlier ++ [left]) cs := by
  -- the operand that the chain carries along is the last of the earlier values
  induction cs generalizing earlier left with
  | nil => rfl
  | cons c cs ih =>
    rw [chain, judge]
    refine bind_congr fun right => bind_congr fun h => ?_
    rw [Criterion.passes_adjacent]
    refine bind_congr fun tested => bind_congr fun holds => ?_
    cases holds with
    | false => rfl
    | true => exact ih (earlier ++ [left]) right

theorem containsAll_eq (col : Value) (earlier : List Value) (cs : List Code) :
    containsAll r s col cs = judge .containment r s (col :: earlier) cs := by
  induction cs generalizing earlier with
  | nil => rfl
  | cons c cs ih =>
    rw [containsAll, judge]
    refine bind_congr fun elem => bind_congr fun h => bind_congr fun tested => ?_
    refine bind_congr fun found => ?_
    cases found with
    | false => rfl
    | true => exact ih (earlier ++ [elem])

theorem run_evalUntil (stop result : Bool) (earlier : List Value) (cs : List Code) (w : World) :
    (evalUntil r s stop cs).run w =
      Prod.map (Except.map (· != result)) id ((judge (.truth stop result) r s earlier cs).run w) := by
  induction cs generalizing earlier w with
  | nil => cases result <;> rfl
  | cons c cs ih =>
    rw [evalUntil, run_bind, run_judge_cons]
    rcases (r.eval c s).run w with ⟨f | v, w'⟩
    · rfl
    · change (if w'.heap.truthy v = stop then pure true else evalUntil r s stop cs : EvalM Bool).run w' = _
      dsimp only [Criterion.truth]
      by_cases hstop : w'.heap.truthy v = stop
      · rw [if_pos hstop, bne_eq_false_iff_eq.mpr hstop]
        cases result <;> rfl
      · rw [if_neg hstop, bne_iff_ne.mpr hstop]
        exact ih (earlier ++ [v]) w'

theorem run_allPass (t : TypeTest) (negated : Bool) (earlier : List Value) (cs : List Code) (w : World) :
    (allPass r s t cs).run w =
      Prod.map (Except.map (· != negated)) id ((judge (.kind t negated) r s earlier cs).run w) := by
  induction cs generalizing earlier w with
  | nil => cases negated <;> rfl
  | cons c cs ih =>
    rw [allPass, run_bind, run_judge_cons]
    rcases (r.eval c s).run w with ⟨f | v, w'⟩
    · rfl
    · dsimp only [Criterion.kind]
      cases t.holds v with
      | false => cases negated <;> rfl
      | true => exact ih (earlier ++ [v]) w'

theorem run_checkArity_cons (c : Code) (cs : List Code) (w : World) :
    (checkArity (c :: cs) 1 (-1)).run w = (.ok (), w) := by
  rw [checkArity, if_neg]
  · rfl
  · simp

theorem run_callFirst {search : Value → EvalM Bool} (hpasses : ∀ f, crit.passes [] f = some (.ok true))
    (hsearch : ∀ v, search v = judge crit r s [v] cs) :
    (checkArity (c :: cs) 1 (-1) >>= fun _ => r.eval c s >>= fun v => search v >>= fun found =>
      pure (Value.bool found)).run w =
      Prod.map (Except.map .bool) id ((judge crit r s [] (c :: cs)).run w) := by
  rw [run_bind, run_checkArity_cons]
  dsimp only
  rw [run_bind]
  rcases hc : (r.eval c s).run w with ⟨f | v, w₁⟩
  · rw [judge_of_ends (.fault hc)]
    rfl
  · have hfirst : (judge crit r s [] (c :: cs)).run w = (judge crit r s [v] cs).run w₁ :=
      judge_of_finds (.cons hc (.nil w₁)) ⟨hpasses _, trivial⟩ cs
    rw [hfirst]
    dsimp only
    rw [run_bind, hsearch]
    rcases (judge crit r s [v] cs).run w₁ with ⟨f | found, w₂⟩ <;> rfl

theorem run_callRelation (rel : Relation) (hargs : 1 ≤ args.length) :
    (callRelation r rel args s).run w =
      Prod.map (Except.map .bool) id ((judge (.adjacent rel) r s [] args).run w) := by
  obtain ⟨c, cs, rfl⟩ := List.exists_cons_of_length_pos hargs
  exact run_callFirst (fun _ => rfl) fun left => chain_eq rel [] left cs

theorem run_callContains (hargs : 1 ≤ args.length) :
    (callContains r args s).run w =
      Prod.map (Except.map .bool) id ((judge .containment r s [] args).run w) := by
  obtain ⟨c, cs, rfl⟩ := List.exists_cons_of_length_pos hargs
  exact run_callFirst (fun _ => rfl) fun col => containsAll_eq col [] cs

theorem run_bind_bool {x y : EvalM Bool} {f g : Bool → Bool}
    (hrun : x.run w = Prod.map (Except.map f) id (y.run w)) (hgf : ∀ found, g (f found) = found) :
    (x >>= fun found => pure (Value.bool (g found))).run w =
      Prod.map (Except.map .bool) id (y.run w) := by
  rw [run_bind, hrun]
  rcases y.run w with ⟨fault | found, w'⟩
  · rfl
  · change (Except.ok (Value.bool (g (f found))), w') = _
    rw [hgf]
    rfl

theorem run_callBuiltin (hb : b.criterion? = some crit) (hmany : crit.least ≤ args.length) :
    (callBuiltin r b args s).run w = Prod.map (Except.map .bool) id ((judge crit r s [] args).run w) := by
  cases b with
  | relation rel =>
    cases hb
    exact run_callRelation rel hmany
  | contains =>
    cases hb
    exact run_callContains hmany
  | and =>
    cases hb
    exact run_bind_bool (run_evalUntil false true [] args w) (by decide)
  | or =>
    cases hb
    exact run_bind_bool (run_evalUntil true false [] args w) (by decide)
  | not =>
    cases hb
    exact run_bind_bool (run_evalUntil true true [] args w) (by decide)
  | test t negated =>
    cases hb
    have htwice (found : Bool) : ((found != negated) != negated) = found := by
      cases negated <;> cases found <;> rfl
    exact run_bind_bool (run_allPass t negated [] args w) htwice
  | _ => cases hb

end EvalM

end EventTally
