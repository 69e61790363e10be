import EventTally.Eval.Collection
import EventTally.Proofs.Eval.Trees

/-! # What a slice holds

Start, stop and step of a slice mean places on a line on which the elements have the positions from 0:
a negative bound counts from the end, and a bound beyond the elements is moved to the place next to
them. The slice holds the elements at the start, one step further, and so on, as long as they lie before
the stop in the direction of the step (`slice_selects`). The fuel that the search for the positions gets
is enough, and while the size of the step leaves room for the length no position wraps around.
-/

namespace EventTally

namespace Slice

/-- The place that a bound means among `n` elements. -/
def place (n : Nat) (step i : Int) : Int :=
  let p := if i < 0 then i + n else i
  if 0 < step then max 0 (min n p) else max (-1) (min (n - 1) p)

/-- Where a slice starts: at the end that its step leads away from, if nothing is given. -/
def origin (n : Nat) (step : Int) : Option Int64 → Int
  | none => if 0 < step then 0 else n - 1
  | some i => place n step i.toInt

/-- Where a slice stops: beyond the end that its step leads to, if nothing is given. -/
def limit (n : Nat) (step : Int) : Option Int64 → Int
  | none => if 0 < step then n else -1
  | some i => place n step i.toInt

/-- The order of places in the direction of a step. -/
def Before (step p q : Int) : Prop := if 0 < step then p < q else q < p

instance (step p q : Int) : Decidable (Before step p q) :=
  inferInstanceAs (Decidable (if 0 < step then p < q else q < p))

/-- The bound as an argument. -/
def argument : Option Int64 → Value
  | none => .null
  | some i => .int i

/-- `ys` holds the elements of `xs` at the places `first`, `first + step`, `first + 2 * step` and so on
that lie before `stop`. All of these are positions of `xs`. -/
def Selects {α : Type} (first stop step : Int) (xs ys : List α) : Prop :=
  ∀ k : Nat,
    if Before step (first + k * step) stop then
      0 ≤ first + k * step ∧ first + k * step < xs.length ∧ ys[k]? = xs[(first + k * step).toNat]?
    else ys[k]? = none

variable {n : Nat} {first stop step : Int}

theorem before_forwards (hstep : 0 < step) {p q : Int} : Before step p q ↔ p < q :=
  iff_of_eq (if_pos hstep)

theorem before_backwards (hstep : ¬ 0 < step) {p q : Int} : Before step p q ↔ q < p :=
  iff_of_eq (if_neg hstep)

theorem clamp_eq_place (n : Nat) (step i : Int) : clamp i n step = place n step i := by
  unfold clamp place
  dsimp only
  split <;> omega

/-- Where slices start and stop: forwards at positions or at the end, backwards at positions or before
the first one. -/
structure Within (n : Nat) (step p : Int) : Prop where
  forwards : 0 < step → 0 ≤ p ∧ p ≤ n
  backwards : step < 0 → -1 ≤ p ∧ p < n

theorem within_place (n : Nat) (step i : Int) : Within n step (place n step i) := by
  unfold place
  constructor <;> intro hstep <;> dsimp only <;> omega

theorem within_origin (n : Nat) (step : Int) (start : Option Int64) :
    Within n step (origin n step start) := by
  cases start with
  | none => constructor <;> intro hstep <;> unfold origin <;> dsimp only <;> split <;> omega
  | some i => exact within_place n step i.toInt

theorem within_limit (n : Nat) (step : Int) (stop : Option Int64) :
    Within n step (limit n step stop) := by
  cases stop with
  | none => constructor <;> intro hstep <;> unfold limit <;> dsimp only <;> split <;> omega
  | some i => exact within_place n step i.toInt

def distance (stop step p : Int) : Nat := if 0 < step then (stop - p).toNat else (p - stop).toNat

theorem distance_le (hfirst : Within n step first) (hstop : Within n step stop) (hstep : step ≠ 0) :
    distance stop step first < n + 1 := by
  have hforwards := hfirst.forwards
  have hbackwards := hfirst.backwards
  have hforwards' := hstop.forwards
  have hbackwards' := hstop.backwards
  unfold distance
  split <;> omega

theorem distance_add_lt (hstep : step ≠ 0) {p : Int} (h : Before step p stop) :
    distance stop step (p + step) < distance stop step p := by
  unfold distance
  by_cases hpos : 0 < step
  · have := (before_forwards hpos).mp h
    rw [if_pos hpos, if_pos hpos]
    omega
  · have := (before_backwards hpos).mp h
    rw [if_neg hpos, if_neg hpos]
    omega

theorem not_before_add {p : Int} (h : ¬ Before step p stop) (k : Nat) :
    ¬ Before step (p + k * step) stop := by
  by_cases hpos : 0 < step
  · have hmoved := Int.mul_nonneg (Int.natCast_nonneg k) hpos.le
    rw [before_forwards hpos] at h ⊢
    omega
  · have hmoved := Int.mul_nonpos_of_nonneg_of_nonpos (Int.natCast_nonneg k) (Int.not_lt.mp hpos)
    rw [before_backwards hpos] at h ⊢
    omega

theorem position_of_before (hstep : step ≠ 0) (hfirst : Within n step first) (hstop : Within n step stop)
    {k : Nat} (h : Before step (first + k * step) stop) :
    0 ≤ first + k * step ∧ first + k * step < n := by
  by_cases hpos : 0 < step
  · have hmoved := Int.mul_nonneg (Int.natCast_nonneg k) hpos.le
    have := hfirst.forwards hpos
    have := hstop.forwards hpos
    rw [before_forwards hpos] at h
    omega
  · have hmoved := Int.mul_nonpos_of_nonneg_of_nonpos (Int.natCast_nonneg k) (Int.not_lt.mp hpos)
    have := hfirst.backwards (by omega)
    have := hstop.backwards (by omega)
    rw [before_backwards hpos] at h
    omega

/-- The positions that are found are those of the line, each before the stop. The distance to the stop
goes down with each step, so fuel beyond it is enough. -/
theorem positions_eq_some (hstep : step ≠ 0) (hstop : Within n step stop)
    (hroom : step.natAbs + n ≤ 2 ^ 63 - 1) {fuel : Nat} {p : Int} (hp : step < 0 → p < n)
    (hfuel : distance stop step p < fuel) :
    ∃ ps, positions stop step fuel p = some ps ∧
      ∀ k : Nat, ps[k]? = if Before step (p + k * step) stop then some (p + k * step).toNat else none := by
  induction fuel generalizing p with
  | zero => exact absurd hfuel (Nat.not_lt_zero _)
  | succ fuel ih =>
    have htest : ((0 < step && p < stop) || (step < 0 && stop < p)) = decide (Before step p stop) := by
      rw [← Bool.decide_and, ← Bool.decide_and, ← Bool.decide_or, decide_eq_decide]
      by_cases hpos : 0 < step
      · rw [before_forwards hpos]
        omega
      · rw [before_backwards hpos]
        omega
    rw [positions, htest]
    by_cases hbefore : Before step p stop
    · have hfits : ¬ int64Max < p + step := by
        unfold int64Max
        by_cases hpos : 0 < step
        · have := (before_forwards hpos).mp hbefore
          have := hstop.forwards hpos
          omega
        · have := hp (by omega)
          omega
      have hcloser := distance_add_lt hstep hbefore
      obtain ⟨ps, hps, hall⟩ := ih (p := p + step) (fun hneg => by have := hp hneg; omega) (by omega)
      refine ⟨p.toNat :: ps, ?_, fun k => ?_⟩
      · rw [decide_eq_true hbefore, if_pos rfl, if_neg hfits, hps]
        rfl
      · cases k with
        | zero => simp [hbefore]
        | succ k =>
          have hnext : p + ((k + 1 : Nat) : Int) * step = p + step + k * step := by
            rw [Int.natCast_succ, Int.add_mul, Int.one_mul]
            omega
          rw [List.getElem?_cons_succ, hall k, hnext]
    · refine ⟨[], ?_, fun k => (if_neg (not_before_add hbefore k)).symm⟩
      rw [decide_eq_false hbefore]
      rfl

theorem pick_eq_map {α β : Type} (f : α → β) (xs : List α) (ps : List Nat) :
    pick (xs.map f) ps = (pick xs ps).map f := by
  unfold pick
  rw [List.map_filterMap]
  exact List.filterMap_congr fun p _ => by rw [List.getElem?_map]

theorem getElem?_pick {α : Type} {xs : List α} {ps : List Nat} (h : ∀ p ∈ ps, p < xs.length) (k : Nat) :
    (pick xs ps)[k]? = ps[k]?.bind (xs[·]?) := by
  induction ps generalizing k with
  | nil => rfl
  | cons p ps ih =>
    obtain ⟨hp, hrest⟩ := List.forall_mem_cons.mp h
    have hpick : pick xs (p :: ps) = xs[p] :: pick xs ps := by
      unfold pick
      rw [List.filterMap_cons_some (List.getElem?_eq_getElem hp)]
    rw [hpick]
    cases k with
    | zero => exact (List.getElem?_eq_getElem hp).symm
    | succ k => exact ih hrest k

theorem toInt_getD_ne_zero {step : Option Int64} (hstep : step ≠ some 0) : (step.getD 1).toInt ≠ 0 := by
  intro hzero
  cases step with
  | none => cases hzero
  | some i => exact hstep (congrArg some (Int64.toInt_inj.mp hzero))

theorem bound?_argument (b : Option Int64) : bound? (argument b) = .ok (b.map Int64.toInt) := by
  cases b <;> rfl

theorem select_zero (n : Nat) (start stop : Value) :
    select n start stop (argument (some 0)) = .error (.raised { reason := .zeroStep, trace := [] }) := rfl

theorem elim_clamp (n : Nat) (step default : Int) (b : Option Int64) :
    (b.map Int64.toInt).elim default (clamp · n step) = b.elim default fun i => place n step i.toInt := by
  cases b with
  | none => rfl
  | some i => exact clamp_eq_place n step i.toInt

theorem origin_eq (n : Nat) (step : Int) (start : Option Int64) :
    (start.map Int64.toInt).elim (if 0 < step then 0 else (n : Int) - 1) (clamp · n step) =
      origin n step start := by
  rw [elim_clamp]
  cases start <;> rfl

theorem limit_eq (n : Nat) (step : Int) (stop : Option Int64) :
    (stop.map Int64.toInt).elim (if 0 < step then (n : Int) else -1) (clamp · n step) =
      limit n step stop := by
  rw [elim_clamp]
  cases stop <;> rfl

theorem select_eq (n : Nat) (start stop : Option Int64) {step : Option Int64} (hstep : step ≠ some 0)
    {ps : List Nat} (hps : positions (limit n (step.getD 1).toInt stop) (step.getD 1).toInt (n + 1)
      (origin n (step.getD 1).toInt start) = some ps) :
    select n (argument start) (argument stop) (argument step) = .ok ps := by
  have hsize : (step.map Int64.toInt).getD 1 = (step.getD 1).toInt := by
    cases step <;> rfl
  have hsome : step.map Int64.toInt ≠ some 0 := by
    intro h
    have hne := toInt_getD_ne_zero hstep
    rw [← hsize, h] at hne
    exact hne rfl
  unfold select
  rw [bound?_argument, bound?_argument, bound?_argument]
  split
  · next h => cases h
  · next h => exact absurd (Except.ok.inj h) hsome
  · next step' hne h =>
    obtain rfl := Except.ok.inj h
    dsimp only
    rw [origin_eq, limit_eq, hsize, hps]

theorem select_selects {α : Type} (xs : List α) (start stop : Option Int64) {step : Option Int64}
    (hstep : step ≠ some 0) (hroom : (step.getD 1).toInt.natAbs + xs.length ≤ 2 ^ 63 - 1) :
    ∃ ps, select xs.length (argument start) (argument stop) (argument step) = .ok ps ∧
      Selects (origin xs.length (step.getD 1).toInt start) (limit xs.length (step.getD 1).toInt stop)
        (step.getD 1).toInt xs (pick xs ps) := by
  have hne := toInt_getD_ne_zero hstep
  have hfirst := within_origin xs.length (step.getD 1).toInt start
  have hlast := within_limit xs.length (step.getD 1).toInt stop
  obtain ⟨ps, hps, hall⟩ := positions_eq_some hne hlast hroom (fun hneg => (hfirst.backwards hneg).2)
    (distance_le hfirst hlast hne)
  refine ⟨ps, select_eq xs.length start stop hstep hps, fun k => ?_⟩
  have hinside : ∀ p ∈ ps, p < xs.length := by
    intro p hp
    obtain ⟨k, hk⟩ := List.mem_iff_getElem?.mp hp
    rw [hall k] at hk
    split at hk
    · next hbefore =>
      have hpos := position_of_before hne hfirst hlast hbefore
      have heq := Option.some.inj hk
      omega
    · cases hk
  rw [getElem?_pick hinside, hall k]
  split
  · next hbefore =>
    obtain ⟨hlow, hhigh⟩ := position_of_before hne hfirst hlast hbefore
    exact ⟨hlow, hhigh, rfl⟩
  · rfl

end Slice

open Slice

/-- A list, tuple or string and its elements. -/
inductive Heap.Sequence (h : Heap) : Value → List Value → Prop
  | list (r : ListRef) : Sequence h (.list r) (h.elems r)
  | tuple (elems : List Value) : Sequence h (.tuple elems) elems
  | str (s : String) : Sequence h (.str s) (Heap.charStrings s)

namespace EvalM

theorem elems_newList (h : Heap) (vs : List Value) : (h.newList vs).2.elems (h.newList vs).1 = vs :=
  Heap.elems_of_cell Array.getElem?_push_size

-- The elements are read first, then the positions are sought.

section

variable (start stop step : Value) (w : World)

theorem run_slice_list (r : ListRef) : (slice (.list r) start stop step).run w =
    (slice.liftExcept (select (w.heap.elems r).length start stop step) >>= fun ps =>
      newList (pick (w.heap.elems r) ps)).run w := by
  have hheap (f : Heap → EvalM Value) : (heap >>= f).run w = (f w.heap).run w := rfl
  unfold slice
  exact hheap _

theorem run_slice_tuple (elems : List Value) : (slice (.tuple elems) start stop step).run w =
    (slice.liftExcept (select elems.length start stop step) >>= fun ps =>
      pure (.tuple (pick elems ps))).run w := rfl

theorem run_slice_str (s : String) : (slice (.str s) start stop step).run w =
    (slice.liftExcept (select s.toList.length start stop step) >>= fun ps =>
      pure (.str (String.ofList (pick s.toList ps)))).run w := rfl

theorem run_liftExcept_bind {α β : Type} {x : Except Fault α} {a : α} (hx : x = .ok a) (f : α → EvalM β) :
    (slice.liftExcept x >>= f).run w = (f a).run w := by
  rw [hx]
  rfl

theorem run_liftExcept_error {α β : Type} {x : Except Fault α} {e : Fault} (hx : x = .error e)
    (f : α → EvalM β) : (slice.liftExcept x >>= f).run w = (.error e, w) := by
  rw [hx]
  rfl

end

/-- **Slices follow their positions.** The slice of a list, tuple or string is a new value of the same
kind with the elements at the places from where it starts, in steps, up to where it stops, as long as the
size of the step leaves room for the length in 64 bits. What was there before is left as it was. A step of
zero is an error. -/
theorem slice_selects (w : World) {v : Value} {xs : List Value} (hv : w.heap.Sequence v xs)
    (start stop step : Option Int64) :
    (step = some 0 → (slice v (argument start) (argument stop) (argument step)).run w =
      (.error (.raised { reason := .zeroStep, trace := [] }), w)) ∧
    (step ≠ some 0 → (step.getD 1).toInt.natAbs + xs.length ≤ 2 ^ 63 - 1 →
      ∃ u ys heap, (slice v (argument start) (argument stop) (argument step)).run w =
          (.ok u, { w with heap }) ∧
        u.kind = v.kind ∧ heap.Sequence u ys ∧ w.heap.Extends heap ∧
        Selects (origin xs.length (step.getD 1).toInt start) (limit xs.length (step.getD 1).toInt stop)
          (step.getD 1).toInt xs ys) := by
  cases hv with
  | list r =>
    refine ⟨?_, fun hstep hroom => ?_⟩
    · rintro rfl
      rw [run_slice_list, run_liftExcept_error w (select_zero _ _ _)]
    · obtain ⟨ps, hps, hselects⟩ := select_selects (w.heap.elems r) start stop hstep hroom
      refine ⟨.list (w.heap.newList (pick (w.heap.elems r) ps)).1, _,
        (w.heap.newList (pick (w.heap.elems r) ps)).2, ?_, rfl, .list _, .newList _ _, ?_⟩
      · rw [run_slice_list, run_liftExcept_bind w hps]
        rfl
      · rwa [elems_newList]
  | tuple =>
    refine ⟨?_, fun hstep hroom => ?_⟩
    · rintro rfl
      rw [run_slice_tuple, run_liftExcept_error w (select_zero _ _ _)]
    · obtain ⟨ps, hps, hselects⟩ := select_selects xs start stop hstep hroom
      refine ⟨.tuple (pick xs ps), pick xs ps, w.heap, ?_, rfl, .tuple _, .refl _, hselects⟩
      rw [run_slice_tuple, run_liftExcept_bind w hps]
      rfl
  | str s =>
    have hlength : (Heap.charStrings s).length = s.toList.length := List.length_map _
    refine ⟨?_, fun hstep hroom => ?_⟩
    · rintro rfl
      rw [run_slice_str, run_liftExcept_error w (select_zero _ _ _)]
    · obtain ⟨ps, hps, hselects⟩ := select_selects (Heap.charStrings s) start stop hstep hroom
      rw [hlength] at hps
      refine ⟨.str (String.ofList (pick s.toList ps)), _, w.heap, ?_, rfl, .str _, .refl _, ?_⟩
      · rw [run_slice_str, run_liftExcept_bind w hps]
        rfl
      · unfold Heap.charStrings at hselects ⊢
        rwa [String.toList_ofList, ← pick_eq_map]

/-- Every other number from the last one back to the second, the stop being counted from the end. -/
theorem slice_selects_backwards :
    let xs : List Value := [.int 10, .int 20, .int 30, .int 40, .int 50]
    World.initial.heap.Sequence (.tuple xs) xs ∧ some (-2 : Int64) ≠ some 0 ∧
    (-2 : Int64).toInt.natAbs + xs.length ≤ 2 ^ 63 - 1 ∧
    ∃ u ys heap, (slice (.tuple xs) .null (.int (-5)) (.int (-2))).run .initial =
        (.ok u, { World.initial with heap }) ∧
      u.kind = "tuple" ∧ heap.Sequence u ys ∧ World.initial.heap.Extends heap ∧
      Selects 4 0 (-2) xs ys := by
  intro xs
  have hsequence : World.initial.heap.Sequence (.tuple xs) xs := .tuple xs
  have hstep : some (-2 : Int64) ≠ some 0 := by decide
  have hroom : (-2 : Int64).toInt.natAbs + xs.length ≤ 2 ^ 63 - 1 := by decide
  obtain ⟨u, ys, heap, hrun, hkind, hys, hextends, hselects⟩ :=
    (slice_selects .initial hsequence none (some (-5)) (some (-2))).2 hstep hroom
  have hfirst : origin xs.length (-2 : Int64).toInt none = 4 := by decide
  have hlast : limit xs.length (-2 : Int64).toInt (some (-5)) = 0 := by decide
  have hsize : (-2 : Int64).toInt = -2 := by decide
  rw [Option.getD_some, hfirst, hlast, hsize] at hselects
  exact ⟨hsequence, hstep, hroom, u, ys, heap, hrun, hkind, hys, hextends, hselects⟩

end EvalM

end EventTally
