import EventTally.Proofs.Eval.Invariant

/-! # Traces are call paths

Exceptions get their traces while they come out of the calls. An evaluator that hands the names of
the active calls down instead, and puts them into an exception where it is raised, gives the same
traces.
-/

namespace EventTally

namespace Fault

def raisedIn (calls : List String) : Fault → Fault
  | .raised { reason, trace := [] } => .raised { reason, trace := calls }
  | f => f

/-- The fault as it comes out of several calls, the last one innermost. -/
def after (calls : List String) : Fault → Fault
  | .raised e => .raised { e with trace := calls ++ e.trace }
  | f => f

variable {calls : List String}

theorem after_append (name : String) (f : Fault) :
    f.after (calls ++ [name]) = (f.within name).after calls := by
  cases f with
  | raised e => simp [after, within]
  | crashed => rfl
  | exhausted => rfl

theorem raisedIn_after (f : Fault) : (f.after calls).raisedIn calls = f.after calls := by
  rcases f with ⟨r, trace⟩ | _ | _
  · by_cases hnil : calls ++ trace = []
    · obtain ⟨rfl, rfl⟩ := List.append_eq_nil_iff.mp hnil
      rfl
    · simp only [after]
      rw [raisedIn]
      intro reason heq
      injection heq with heq
      injection heq with _ htrace
      exact hnil htrace
  · rfl
  · rfl

end Fault

namespace EvalM

variable {α : Type}

/-- Exceptions that a computation raises get the active calls. -/
def raisedIn (calls : List String) (act : EvalM α) : EvalM α :=
  tryCatch act fun f => throw (f.raisedIn calls)

section

variable (rec : List String → Recursor) (calls : List String)

/-- Calls a function with values. It is active while they are bound and its body is evaluated. -/
def trackedCall (ref : ClosureRef) (args : List Value) : EvalM Value := do
  let c := (← heap).closure ref
  let scope ← newScope c.scope
  let calls := calls ++ [closureName c]
  raisedIn calls do
    let list ← newList args
    (rec calls).bind c.pattern (.value list) scope
    (rec calls).eval c.body scope

/-- Calls what the head of a form evaluated to. A builtin, and `get` for a collection, is active
while it evaluates its arguments, a function is not. -/
def trackedHead (s : ScopeRef) (head : Value) (args : List Code) : EvalM Value := do
  match head with
  | .builtin b =>
    let calls := calls ++ [b.name]
    raisedIn calls (callBuiltin (rec calls) b args s)
  | .closure ref => trackedCall rec calls ref (← evalAll (rec calls) s args)
  | .list _ | .tuple _ | .dict _ =>
    let calls := calls ++ ["get"]
    raisedIn calls (getFrom (rec calls) head args s)
  | head => fail (.badValue "head of form" "callable or collection" head.kind)

end

/-- Evaluation, matching and quoting with a given amount of fuel in the calls that are active. -/
def tracked : Nat → List String → Recursor
  | 0, _ => recursor 0
  | fuel + 1, calls =>
    { eval := fun c s => raisedIn calls
        (stepCalling (trackedHead (tracked fuel) calls s) (tracked fuel calls) c s)
      bind := fun pattern place s => raisedIn calls (bindStep (tracked fuel calls) pattern place s)
      quote := fun c s => raisedIn calls (quoteStep (tracked fuel calls) c s) }

/-- Only faults differ: the second ones have the active calls, unless they have just been raised. -/
abbrev calledIn (calls : List String) : Contract :=
  invariant_anything.relating (fun _ => False) fun f f' => f'.raisedIn calls = f.after calls

abbrev Tracks (calls : List String) (x y : EvalM α) : Prop :=
  (invariant_anything.relating (fun _ => False) fun f f' => f' = f.after calls).Accords Anything x y

variable {calls : List String}

theorem lawful_calledIn (calls : List String) : (calledIn calls).Lawful :=
  invariant_anything.lawful (fun _ => by simp [Fault.raisedIn, Fault.after]) rfl rfl

theorem tracks_raisedIn {x y : EvalM α} (h : (calledIn calls).Accords Anything x y) :
    Tracks calls x (raisedIn calls y) := by
  refine invariant_anything.accords_iff.mpr fun w hw => ?_
  have houtcome := invariant_anything.accords_iff.mp h w hw
  rw [raisedIn, run_tryCatch]
  rcases hrun : x.run w with ⟨f | a, w'⟩
  · rw [hrun] at houtcome
    obtain ⟨f', hrun', -, hf⟩ := houtcome.resolve_left id
    rw [hrun']
    exact .inr ⟨f'.raisedIn calls, rfl, trivial, hf⟩
  · rw [hrun] at houtcome
    rw [houtcome.1]
    exact ⟨rfl, trivial, trivial⟩

theorem Tracks.accords {x y : EvalM α} (h : Tracks calls x y) :
    (calledIn calls).Accords Anything x y := by
  refine invariant_anything.accords_iff.mpr fun w hw => ?_
  have houtcome := invariant_anything.accords_iff.mp h w hw
  rcases hrun : x.run w with ⟨f | a, w'⟩
  · rw [hrun] at houtcome
    obtain ⟨f', hrun', -, rfl⟩ := houtcome.resolve_left id
    exact .inr ⟨_, hrun', trivial, f.raisedIn_after⟩
  · rw [hrun] at houtcome
    exact houtcome

theorem Tracks.withFrame {name : String} {x y : EvalM α} (h : Tracks (calls ++ [name]) x y) :
    Tracks calls (withFrame name x) y := by
  refine invariant_anything.accords_iff.mpr fun w hw => ?_
  have houtcome := invariant_anything.accords_iff.mp h w hw
  rw [run_withFrame]
  rcases hrun : x.run w with ⟨f | a, w'⟩
  · rw [hrun] at houtcome
    obtain ⟨f', hrun', -, rfl⟩ := houtcome.resolve_left id
    exact .inr ⟨_, hrun', trivial, f.after_append name⟩
  · rw [hrun] at houtcome
    exact houtcome

section

variable {r : Recursor} {rec : List String → Recursor}
  (hrec : ∀ calls, r.Accord (rec calls) (calledIn calls))
include hrec

theorem tracks_trackedCall (ref : ClosureRef) (args : List Value) :
    Tracks calls (applyClosure r ref args) (trackedCall rec calls ref args) := by
  apply Contract.accords_heap_bind
  intro w _
  apply (Contract.accords_allocate (Q := Anything) fun _ _ => ⟨rfl, trivial, trivial⟩).bind
  intro scope _
  apply Tracks.withFrame
  apply tracks_raisedIn
  exact Contract.accords_body (lawful_calledIn _) (hrec _) trivial (invariant_anything.runs _)
    (invariant_anything.runs _) fun _ _ => trivial

theorem tracks_trackedHead (s : ScopeRef) (head : Value) (args : List Code) :
    (calledIn calls).Accords Anything (callHead r head args s)
      (trackedHead rec calls s head (args.map (calledIn calls).code)) := by
  rw [invariant_anything.map_code]
  have hargs : ∀ calls, ∀ c ∈ args, (calledIn calls).Runs c := fun _ _ _ => invariant_anything.runs _
  have hget : (calledIn calls).Accords Anything (withFrame "get" (getFrom r head args s))
      (raisedIn (calls ++ ["get"]) (getFrom (rec (calls ++ ["get"])) head args s)) := by
    apply Tracks.accords
    apply Tracks.withFrame
    apply tracks_raisedIn
    have haccords : (calledIn (calls ++ ["get"])).Accords Anything (getFrom r head args s)
        (getFrom (rec (calls ++ ["get"])) head (args.map (calledIn (calls ++ ["get"])).code) s) :=
      Contract.accords_getFrom (lawful_calledIn _) (hrec _) trivial trivial (hargs _)
    rwa [invariant_anything.map_code] at haccords
  cases head with
  | builtin b =>
    apply Tracks.accords
    apply Tracks.withFrame
    apply tracks_raisedIn
    have haccords := Contract.accords_callBuiltin (s := s) (lawful_calledIn _)
      (hrec (calls ++ [b.name])) trivial b (hargs _)
    rwa [invariant_anything.map_code] at haccords
  | closure ref =>
    have haccords := Contract.accords_evalAll (s := s) (hrec calls) trivial (hargs _)
    rw [invariant_anything.map_code] at haccords
    apply haccords.bind
    intro vs _
    exact (tracks_trackedCall hrec ref vs).accords
  | list r => exact hget
  | tuple vs => exact hget
  | dict r => exact hget
  | atom a => exact Contract.accords_fail (lawful_calledIn _) _
  | set r => exact Contract.accords_fail (lawful_calledIn _) _

end

theorem accord_tracked (fuel : Nat) (calls : List String) :
    (recursor fuel).Accord (tracked fuel calls) (calledIn calls) := by
  induction fuel generalizing calls with
  | zero =>
    constructor
    · exact fun _ _ => Accords.throw rfl
    · exact fun _ _ _ => Accords.throw rfl
    · exact fun _ _ => Accords.throw rfl
  | succ fuel ih =>
    constructor
    · intro s c hs hc
      apply Tracks.accords
      apply tracks_raisedIn
      exact Contract.accords_stepCalling (lawful_calledIn calls) (ih calls) hs
        (fun {v args} _ _ => tracks_trackedHead ih s v args) hc
    · intro s pattern place hs hpattern hplace
      apply Tracks.accords
      apply tracks_raisedIn
      exact Contract.accords_bindStep (lawful_calledIn _) (ih calls) hs hpattern hplace
    · intro s c hs hc
      apply Tracks.accords
      apply tracks_raisedIn
      exact Contract.accords_quoteStep (lawful_calledIn _) (ih calls) hs hc

theorem tracks_eval (fuel : Nat) (calls : List String) (c : Code) (s : ScopeRef) :
    Tracks calls ((recursor fuel).eval c s) ((tracked fuel calls).eval c s) := by
  cases fuel with
  | zero => exact Accords.throw rfl
  | succ fuel =>
    apply tracks_raisedIn
    exact Contract.accords_stepCalling (lawful_calledIn calls) (accord_tracked fuel calls) trivial
      (fun {v args} _ _ => tracks_trackedHead (accord_tracked fuel) s v args)
      (invariant_anything.runs c)

theorem Tracks.run_eq {x y : EvalM α} (h : Tracks calls x y) (w : World) :
    y.run w = Prod.map (Except.mapError (Fault.after calls)) id (x.run w) := by
  have houtcome := h w trivial
  rcases hrun : x.run w with ⟨f | a, w'⟩
  · rw [hrun] at houtcome
    obtain ⟨f', hrun', -, rfl⟩ := houtcome.resolve_left id
    exact hrun'
  · rw [hrun] at houtcome
    exact houtcome.1

/-- Evaluations and calls in which exceptions get the active calls where they are raised end as those
in which exceptions get them while they come out: with the same value, or with the same reason and
the same trace behind the calls that were active before; and they leave the same world. -/
theorem run_tracked (fuel : Nat) (calls : List String) (w : World) :
    (∀ c s, ((tracked fuel calls).eval c s).run w =
      Prod.map (Except.mapError (Fault.after calls)) id (((recursor fuel).eval c s).run w)) ∧
    ∀ ref args, (trackedCall (tracked fuel) calls ref args).run w =
      Prod.map (Except.mapError (Fault.after calls)) id
        ((applyClosure (recursor fuel) ref args).run w) := by
  constructor
  · intro c s
    exact (tracks_eval fuel calls c s).run_eq w
  · intro ref args
    exact (tracks_trackedCall (accord_tracked fuel) ref args).run_eq w

/-- `(list ((fn [x] (len x y)) 1))`: the arguments of `list` and of `len` are evaluated in the calls. -/
example :
    let call := Code.form [.sym "list", .form [.form [.sym "fn", .form [.sym "list", .sym "x"],
      .form [.sym "len", .sym "x", .sym "y"]], .value (.int 1)]]
    (match (((tracked 9 []).eval call Heap.builtinScope).run .initial).1 with
      | .error (.raised e) => e.trace
      | _ => []) = ["list", "<anonymous>", "len"] := by
  decide +kernel

end EvalM

end EventTally
