import EventTally.Proofs.Eval.Formula
import EventTally.Proofs.Tally.Pure

/-! # Rules made of formulas

A rule whose fields are formulas over the names that are bound for them computes a pipeline. The
pipeline of such a rule in which only the values of one group count is that of another such rule.
-/

namespace EventTally

/-- A formula that can be evaluated where some names are bound. -/
structure Formula.Over (xs : List String) where
  formula : Formula
  names : formula.names ⊆ xs := by decide
  fuel : formula.fuel ≤ EvalM.ampleFuel := by decide

def environment (data : List (String × Datum)) (x : String) : Datum :=
  (Keyed.find? (· == x) data).getD .null

structure Formulas where
  initial : Formula.Over []
  value : Formula.Over ["instance"]
  filter : Formula.Over ["value"]
  group : Formula.Over ["value"]
  change : Formula.Over ["tally", "old_value", "new_value"]

namespace Formulas

def tally (F : Formulas) (name : String) (grouped : Bool) (host : ScopeRef) : Tally where
  name := name
  grouped := grouped
  host := host
  code := fun
    | .base => .value .null
    | .getTally => F.initial.formula.code
    | .getValue => F.value.formula.code
    | .filterValue => F.filter.formula.code
    | .handleChange => F.change.formula.code
    | .getGroup => F.group.formula.code

def pipeline (F : Formulas) : Pipeline where
  initial := F.initial.formula.value? (environment [])
  value d := F.value.formula.value? (environment [("instance", d)])
  filter d := do return (← F.filter.formula.value? (environment [("value", d)])).truthy
  group d := F.group.formula.value? (environment [("value", d)])
  change acc old new := F.change.formula.value?
    (environment [("tally", acc), ("old_value", old), ("new_value", new)])

/-- The builtins can be called where the fields of a tally are evaluated. -/
def Ready (host : ScopeRef) (b : Tally.Bench) : Prop :=
  EvalM.Visible b.world.heap (b.scope.getD host)

end Formulas

namespace Tally

open EvalM

variable {t : Tally} {b : Bench} {α δ : Type}

theorem yields_baseScope (hbase : t.code .base = (Formula.const .null).code)
    (hb : Formulas.Ready t.host b) :
    Yields (Formulas.Ready t.host) (fun h s (_ : Unit) => Visible h s) b t.baseScope (some ()) := by
  obtain ⟨scope, w⟩ := b
  cases scope with
  | some s => exact ⟨s, _, rfl, hb, .refl _, hb⟩
  | none =>
    let w' : World := { w with heap := w.heap.frame t.host [] }
    have hvisible : Visible w'.heap (w.heap.child t.host).1 := visible_frame (by simp) (by simp) hb
    have hnames : ∀ x ∈ (Formula.const .null).names, ∃ v, w'.heap.lookup (w.heap.child t.host).1 x = some v ∧
        w'.heap.Shows v (environment [] x) := by
      rintro x ⟨⟩
    obtain ⟨v, heval, -⟩ := (Formula.const .null).answers (environment []) hvisible hnames
      (n := ampleFuel) (by decide)
    have hrun : ((do
        let s ← newScope t.host
        let _ ← eval (t.code .base) s
        return s : EvalM ScopeRef).run w) = (.ok (w.heap.child t.host).1, w') := by
      rw [run_bind]
      change ((recursor ampleFuel).eval (t.code .base) (w.heap.child t.host).1 >>= _).run w' = _
      rw [run_bind, hbase, heval]
      rfl
    refine ⟨(w.heap.child t.host).1, ⟨some (w.heap.child t.host).1, w'⟩, ?_, hvisible,
      w.heap.extends_frame t.host [], hvisible⟩
    change (t.evaluating .base _ >>= _).run _ = _
    rw [run_bind, run_evaluating, hrun]
    rfl

/-- Names with the values that they are bound to and the data that these show. -/
def Binds (h : Heap) (bindings : List (String × Value)) (data : List (String × Datum)) : Prop :=
  List.Forall₂ (fun e d => e.1 = d.1 ∧ h.Shows e.2 d.2) bindings data

theorem Binds.find? {h : Heap} {bindings : List (String × Value)} {data : List (String × Datum)}
    (hbinds : Binds h bindings data) {x : String} (hx : x ∈ bindings.map Prod.fst) :
    ∃ v, Keyed.find? (· == x) bindings = some v ∧ h.Shows v (environment data x) := by
  unfold environment
  induction hbinds with
  | nil => cases hx
  | @cons e d bindings data he _ ih =>
    rw [Keyed.find?_cons, Keyed.find?_cons, ← he.1]
    cases heq : e.1 == x with
    | true => exact ⟨e.2, rfl, he.2⟩
    | false =>
      refine ih ?_
      rcases List.mem_cons.mp hx with rfl | hx
      · rw [beq_self_eq_true] at heq
        cases heq
      · exact hx

theorem yields_run (hbase : t.code .base = (Formula.const .null).code)
    (hb : Formulas.Ready t.host b) {xs : List String} (f : Formula.Over xs) (field : RuleField)
    (hcode : t.code field = f.formula.code) (hnodup : xs.Nodup)
    (hfree : ∀ b ∈ Builtin.all, b.name ∉ xs) {bindings : List (String × Value)}
    {data : List (String × Datum)} (hxs : bindings.map Prod.fst = xs)
    (hbinds : Binds b.world.heap bindings data) :
    Yields (Formulas.Ready t.host) Heap.Shows b (t.run field bindings)
      (f.formula.value? (environment data)) := by
  subst hxs
  refine Yields.bind (k := fun _ => f.formula.value? (environment data)) (yields_baseScope hbase hb)
    fun base _ b hb hext hvisible => ?_
  let w : World := { b.world with heap := b.world.heap.frame base bindings }
  have hframe : b.world.heap.Extends w.heap := b.world.heap.extends_frame base bindings
  have hready : Formulas.Ready t.host { b with world := w } := visible_extends hb hframe
  have hnames : ∀ x ∈ f.formula.names, ∃ v,
      w.heap.lookup (b.world.heap.child base).1 x = some v ∧ w.heap.Shows v (environment data x) := by
    intro x hx
    obtain ⟨v, hfind, hv⟩ := hbinds.find? (f.names hx)
    exact ⟨v, Heap.lookup_frame_own _ base hnodup hfind, hv.mono (hext.trans hframe)⟩
  have hanswers := f.formula.answers (environment data) (w := w)
    (visible_frame hnodup hfree hvisible) hnames f.fuel
  have hrun : ((do
      let s ← newScope base
      modifyHeap (·.bindAll s bindings)
      eval (t.code field) s : EvalM Value).run b.world) =
      ((recursor ampleFuel).eval f.formula.code (b.world.heap.child base).1).run w := by
    rw [hcode]
    rfl
  cases hvalue : f.formula.value? (environment data) with
  | none =>
    rw [hvalue] at hanswers
    obtain ⟨fault, hfault⟩ := hanswers
    refine ⟨t.faultIn field fault, { b with world := w }, ?_⟩
    rw [run_evaluating, hrun, hfault]
  | some d =>
    rw [hvalue] at hanswers
    obtain ⟨v, hv, hshows⟩ := hanswers
    refine ⟨v, { b with world := w }, ?_, hready, hframe, hshows⟩
    rw [run_evaluating, hrun, hv]

end Tally

namespace Formulas

open Tally

theorem isPure (F : Formulas) (name : String) (grouped : Bool) (host : ScopeRef) :
    (F.tally name grouped host).IsPure F.pipeline (Ready host) where
  extend hb hext := EvalM.visible_extends hb hext
  initial hb := yields_run rfl hb F.initial _ rfl (by decide) (by decide) rfl .nil
  value hb hv := yields_run rfl hb F.value _ rfl (by decide) (by decide) rfl (.cons ⟨rfl, hv⟩ .nil)
  filter {b v d} hb hv := by
    have hrun := yields_run (t := F.tally name grouped host) rfl hb F.filter .filterValue
      rfl (by decide) (by decide) rfl (.cons (a := ("value", v)) (b := ("value", d)) ⟨rfl, hv⟩ .nil)
    refine hrun.bind fun v d b' hb' _ hv => ?_
    exact Yields.heap_bind (Yields.pure hb' hv.truthy)
  group {b v d} hb hv hnull := by
    have hrun : (F.tally name grouped host).group v =
        (F.tally name grouped host).run .getGroup [("value", v)] := by
      unfold Tally.group
      split
      · rw [← hv.datum] at hnull
        cases hnull
      · rfl
    rw [hrun]
    exact yields_run rfl hb F.group _ rfl (by decide) (by decide) rfl (.cons ⟨rfl, hv⟩ .nil)
  change hb hacc hold hnew := yields_run rfl hb F.change _ rfl (by decide) (by decide) rfl
    (.cons ⟨rfl, hacc⟩ (.cons ⟨rfl, hold⟩ (.cons ⟨rfl, hnew⟩ .nil)))

/-- The formulas of the rule in which only the values of a group count. -/
def only (F : Formulas) (g : Atom)
    (hfuel : (Formula.cond F.filter.formula (.equal F.group.formula (.const g))
      (.const (.bool false))).fuel ≤ EvalM.ampleFuel := by decide) : Formulas :=
  { F with filter := {
      formula := .cond F.filter.formula (.equal F.group.formula (.const g)) (.const (.bool false))
      names := by
        have hfilter := F.filter.names
        have hgroup := F.group.names
        simp only [Formula.names, List.append_nil]
        exact List.append_subset.mpr ⟨hfilter, hgroup⟩
      fuel := hfuel } }

theorem pipeline_only (F : Formulas) (g : Atom) (hfuel) :
    (F.only g hfuel).pipeline = F.pipeline.only (.atom g) := by
  have hfilter : (F.only g hfuel).pipeline.filter = (F.pipeline.only (.atom g)).filter := by
    funext d
    change (Formula.value? (environment [("value", d)]) (.cond F.filter.formula
      (.equal F.group.formula (.const g)) (.const (.bool false))) >>= _) = _
    simp only [Formula.value?, Pipeline.only, pipeline]
    cases F.filter.formula.value? (environment [("value", d)]) with
    | none => rfl
    | some pass =>
      cases hpass : pass.truthy with
      | false => simp [hpass]
      | true =>
        cases F.group.formula.value? (environment [("value", d)]) with
        | none => simp [hpass]
        | some k => simp [hpass]
  unfold Pipeline.only at hfilter ⊢
  exact congrArg (fun filter => { F.pipeline with filter }) hfilter

/-- One number if a name stands for null, and another if it does not. -/
def ifNull (x : String) (i j : Int64) : Formula :=
  .cond (.equal (.name x) (.const .null)) (.const (.int i)) (.const (.int j))

/-- The rule that counts records by a filter and by groups. -/
def counting (filter group : Formula.Over ["value"]) : Formulas where
  initial := { formula := .const (.int 0) }
  value := { formula := .name "instance" }
  filter := filter
  group := group
  change :=
    { formula := .add (.name "tally") (.add (ifNull "new_value" 0 1) (ifNull "old_value" 0 (-1))) }

/-- The rule that counts the records that are on, by whether they are of the kind `a`. -/
def kinds : Formulas :=
  counting { formula := .get (.name "value") "on" (.const (.bool true)) }
    { formula := .equal (.get (.name "value") "kind" (.const .null)) (.const (.str "a")) }

/-- A record of some kind is made, another changes its kind, and one goes. -/
def kindEvents : List Event :=
  [{ model := "m", old := none, new := some [("kind", .str "a")] },
    { model := "m", old := none, new := some [("kind", .str "b")] },
    { model := "m", old := some [("kind", .str "b")],
      new := some [("kind", .str "a"), ("on", .bool true)] },
    { model := "m", old := some [("kind", .str "a")], new := none },
    { model := "m", old := none, new := some [("kind", .str "a"), ("on", .bool false)] }]

def IsBool (g : Datum) : Prop := ∃ b, g = .bool b

theorem equal_bool (a b : Bool) : (Datum.bool a).equal (.bool b) = true ↔ a = b := by
  simp [Datum.equal, Atom.equal]

theorem equalOn_isBool : Pipeline.EqualOn IsBool where
  refl := by
    rintro _ ⟨a, rfl⟩
    exact (equal_bool a a).mpr rfl
  symm := by
    rintro _ _ ⟨a, rfl⟩ ⟨b, rfl⟩ h
    exact (equal_bool b a).mpr ((equal_bool a b).mp h).symm
  trans := by
    rintro _ _ _ ⟨a, rfl⟩ ⟨b, rfl⟩ ⟨c, rfl⟩ h h'
    exact (equal_bool a c).mpr (((equal_bool a b).mp h).trans ((equal_bool b c).mp h'))

theorem isBool_of_occurs {ev : Event} {k : Datum} (h : kinds.pipeline.Occurs ev k) : IsBool k := by
  obtain ⟨hnull, v, -, hk⟩ := h
  obtain ⟨-, hgroup⟩ := Pipeline.isNull_of_groupOf hk hnull
  obtain ⟨d, -, hgroup⟩ := Option.bind_eq_some_iff.mp hgroup
  cases hgroup
  exact ⟨_, rfl⟩

theorem hashesAs (b : Bool) (ev : Event) : kinds.pipeline.HashesAs (.bool b) ev := by
  intro k hk hequal
  obtain ⟨a, rfl⟩ := isBool_of_occurs hk
  rw [(equal_bool a b).mp hequal]

end Formulas

end EventTally
