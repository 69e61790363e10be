import EventTally.Proofs.Codec.RoundTrip
import EventTally.Proofs.Eval.Formula
import EventTally.Proofs.Pattern.Code
import EventTally.Proofs.Source.Printed

/-! # Evaluating literals

The literal of a datum evaluates to a value that shows the datum, where all builtins can be called
(`rebuilds_literal`). Together with what the parser reads in a representation this says that printed data
evaluate to themselves (`evalSource_repr`).
-/

namespace EventTally

open Datum (Identical Literal)

namespace EvalM

variable {α β : Type} {w : World} {R : Heap → α → Prop} {S : Heap → β → Prop}

/-- An evaluation succeeds with a result in `R`, makes new objects and changes nothing. -/
def Builds (w : World) (R : Heap → α → Prop) (act : EvalM α) : Prop :=
  ∃ a h, act.run w = (.ok a, { w with heap := h }) ∧ w.heap.Extends h ∧ R h a

namespace Builds

theorem pure {a : α} (h : R w.heap a) : Builds w R (Pure.pure a) := ⟨a, w.heap, rfl, .refl _, h⟩

theorem bind {x : EvalM α} {f : α → EvalM β} (hx : Builds w R x)
    (hf : ∀ a h, w.heap.Extends h → R h a → Builds { w with heap := h } S (f a)) :
    Builds w S (x >>= f) := by
  obtain ⟨a, h, hrun, hext, hR⟩ := hx
  obtain ⟨b, h', hrun', hext', hS⟩ := hf a h hext hR
  refine ⟨b, h', ?_, hext.trans hext', hS⟩
  rw [run_bind, hrun]
  exact hrun'

theorem congr {x y : EvalM α} (hy : Builds w R y) (hrun : x.run w = y.run w) : Builds w R x := by
  obtain ⟨a, h, hresult, hext, hR⟩ := hy
  exact ⟨a, h, hrun.trans hresult, hext, hR⟩

theorem heap_bind {f : Heap → EvalM β} (h : Builds w S (f w.heap)) : Builds w S (heap >>= f) := h

theorem withFrame {act : EvalM α} (h : Builds w R act) (frame : String) :
    Builds w R (withFrame frame act) := by
  obtain ⟨a, h, hrun, hext, hR⟩ := h
  refine ⟨a, h, ?_, hext, hR⟩
  unfold EvalM.withFrame
  rw [run_tryCatch, hrun]

end Builds

variable {s : ScopeRef} {n : Nat}

theorem builds_newList {vs : List Value} {ds : List Datum} (hvs : List.Forall₂ w.heap.Shows vs ds) :
    Builds w (fun h v => h.Shows v (.list ds)) (newList vs) :=
  ⟨_, _, rfl, .newList _ _, Heap.shows_newList hvs⟩

theorem builds_newDict {es : List (Value × Value)} {ds : List (Datum × Datum)}
    (hes : List.Forall₂ w.heap.ShowsEntry es ds) :
    Builds w (fun h v => h.Shows v (.dict ds)) (newDict es) :=
  ⟨_, _, rfl, .newDict _ _, Heap.shows_newDict hes⟩

theorem builds_newSet {vs : List Value} {ds : List Datum} (hvs : List.Forall₂ w.heap.Shows vs ds) :
    Builds w (fun h v => h.Shows v (.set ds)) (newSet vs) :=
  ⟨_, _, rfl, .newSet _ _, Heap.shows_newSet hvs⟩

theorem builds_form {b : Builtin} (hvisible : Visible w.heap s) (hb : b ∈ Builtin.all)
    {args : List Code} {R : Heap → Value → Prop}
    (hcall : Builds w R (callBuiltin (recursor (n + 1)) b args s)) :
    Builds w R ((recursor (n + 2)).eval (.form (.sym b.name :: args)) s) := by
  obtain ⟨v, hhead, rfl⟩ : Answers w Eq ((recursor (n + 1)).eval (.sym b.name) s)
      (some (.builtin b)) := answers_name (hvisible b hb) rfl
  obtain ⟨a, h, hrun, hresult⟩ := hcall.withFrame b.name
  refine ⟨a, h, ?_, hresult⟩
  change ((recursor (n + 1)).eval (.sym b.name) s >>= fun v =>
    callHead (recursor (n + 1)) v args s).run w = _
  rw [run_bind, hhead]
  exact hrun

/-- The literal of a datum evaluates to a value that shows it. -/
def Rebuilds (r : Recursor) (s : ScopeRef) (d : Datum) : Prop :=
  ∀ w : World, Visible w.heap s → Builds w (fun h v => h.Shows v d) (r.eval (.ofExpr (.ofDatum d)) s)

theorem builds_evalAll {r : Recursor} (hvisible : Visible w.heap s) {ds : List Datum}
    (hds : ∀ d ∈ ds, Rebuilds r s d) :
    Builds w (fun h vs => List.Forall₂ h.Shows vs ds)
      (evalAll r s (Code.ofExprs (Expr.ofData ds))) := by
  induction ds generalizing w with
  | nil =>
    rw [Expr.ofData, Code.ofExprs]
    exact Builds.pure .nil
  | cons d ds ih =>
    obtain ⟨hd, hrest⟩ := List.forall_mem_cons.mp hds
    rw [Expr.ofData, Code.ofExprs]
    refine (hd w hvisible).bind fun v h hext hv => ?_
    refine (ih (visible_extends hvisible hext) hrest).bind fun vs h' hext' hvs => ?_
    exact Builds.pure (.cons (hv.mono hext') hvs)

theorem map_datum_of_shows {h : Heap} {vs : List Value} {ds : List Datum}
    (hvs : List.Forall₂ h.Shows vs ds) : vs.map h.datum = ds := by
  induction hvs with
  | nil => rfl
  | cons hv _ ih => rw [List.map_cons, hv.datum, ih]

theorem insertMembers_shows {h : Heap} {vs : List Value} {ds : List Datum}
    (hvs : List.Forall₂ h.Shows vs ds) (hkey : ∀ d ∈ ds, d.hashable = true)
    (hapart : ds.Pairwise fun d d' => d'.sameKey d = false) :
    vs.foldlM (fun acc v => h.insertMember v acc) [] = .ok vs := by
  have hdata := map_datum_of_shows hvs
  have hpairwise : vs.Pairwise fun v v' => h.sameKey v' v = false := by
    rw [← hdata, List.pairwise_map] at hapart
    exact hapart
  refine Codec.foldlM_append (fun acc v hv hacc => ?_) [] hpairwise
  have hhash : h.hashable v = true := by
    refine hkey (h.datum v) ?_
    rw [← hdata]
    exact List.mem_map_of_mem hv
  unfold Heap.insertMember
  rw [if_pos hhash, Keyed.insertElem_eq_append hacc]

theorem builds_evalEntries {r : Recursor} (hvisible : Visible w.heap s) {es ds : List (Datum × Datum)}
    {acc : List (Value × Value)} (hkeys : ∀ e ∈ es, Rebuilds r s e.1)
    (hvalues : ∀ e ∈ es, Rebuilds r s e.2) (hhash : ∀ e ∈ es, e.1.hashable = true)
    (hacc : List.Forall₂ w.heap.ShowsEntry acc ds)
    (hapart : (ds ++ es).Pairwise fun e e' => e'.1.sameKey e.1 = false) :
    Builds w (fun h v => h.Shows v (.dict (ds ++ es)))
      (evalEntries r s acc (Code.ofExprs (Expr.ofEntries es))) := by
  induction es generalizing w ds acc with
  | nil =>
    rw [Expr.ofEntries, Code.ofExprs, List.append_nil]
    exact builds_newDict hacc
  | cons e es ih =>
    obtain ⟨k, v⟩ := e
    obtain ⟨hk, hkeys⟩ := List.forall_mem_cons.mp hkeys
    obtain ⟨hv, hvalues⟩ := List.forall_mem_cons.mp hvalues
    obtain ⟨hhashable, hhash⟩ := List.forall_mem_cons.mp hhash
    rw [Expr.ofEntries, Code.ofExprs, Code.ofExprs]
    refine (hk w hvisible).bind fun key h hext hkey => ?_
    have hvisible' := visible_extends hvisible hext
    refine (hv { w with heap := h } hvisible').bind fun value h' hext' hvalue => Builds.heap_bind ?_
    have hacc' := hacc.imp fun _ _ he => he.mono (hext.trans hext')
    have hkey' := hkey.mono hext'
    have hinsert : h'.insertEntry key value acc = .ok (acc ++ [(key, value)]) := by
      unfold Heap.insertEntry Heap.hashable
      rw [hkey'.datum, if_pos hhashable, Keyed.insert_eq_append]
      intro e he
      obtain ⟨d, hd, hshows⟩ := Codec.mem_right hacc'.flip he
      rw [Heap.sameKey_shows hkey' hshows.1]
      exact (List.pairwise_append.mp hapart).2.2 d hd (k, v) (by simp)
    change Builds _ _ (ofExcept (h'.insertEntry key value acc) >>= fun acc =>
      evalEntries r s acc (Code.ofExprs (Expr.ofEntries es)))
    rw [hinsert]
    rw [List.append_cons] at hapart ⊢
    exact ih (visible_extends hvisible' hext') hkeys hvalues hhash
      (List.rel_append hacc' (.cons ⟨hkey', hvalue⟩ .nil)) hapart

theorem checkArity_any (args : List Code) : checkArity args 0 (-1) = pure () := by
  unfold checkArity
  rw [if_neg]
  simp

theorem length_ofEntries (es : List (Datum × Datum)) :
    (Code.ofExprs (Expr.ofEntries es)).length = 2 * es.length := by
  induction es with
  | nil =>
    rw [Expr.ofEntries, Code.ofExprs]
    rfl
  | cons e es ih =>
    obtain ⟨k, v⟩ := e
    rw [Expr.ofEntries, Code.ofExprs, Code.ofExprs]
    simp only [List.length_cons, ih]
    omega

theorem rebuilds_elements (b : Bracket) (op : StrictOp) (hname : b.tag = op.name)
    (hop : Builtin.strict op ∈ Builtin.all) (harity : op.arity = (0, -1)) {d : Datum} {ds : List Datum}
    (hliteral : Expr.ofDatum d = .tagged b.tag (Expr.ofData ds))
    (hds : ∀ d ∈ ds, Rebuilds (recursor (n + 1)) s d)
    (hmake : ∀ (w : World) vs, List.Forall₂ w.heap.Shows vs ds →
      Builds w (fun h v => h.Shows v d) (applyStrict op vs)) :
    Rebuilds (recursor (n + 2)) s d := by
  intro w hvisible
  rw [hliteral, Code.ofExpr_tagged, ← Code.ofExprs_eq_map, hname]
  refine builds_form hvisible hop ?_
  change Builds w _ (callStrict (recursor (n + 1)) op (Code.ofExprs (Expr.ofData ds)) s)
  unfold callStrict
  rw [harity, checkArity_any, pure_bind]
  exact (builds_evalAll hvisible hds).bind fun vs h _ hvs => hmake { w with heap := h } vs hvs

theorem exists_two_fuel {ds : List Datum} (hn : Datum.nestingAll ds + 1 < n) :
    ∃ m, n = m + 2 ∧ ∀ d ∈ ds, d.nesting < m + 1 := by
  obtain ⟨m, rfl⟩ := Nat.exists_eq_add_of_le' (show 2 ≤ n by omega)
  exact ⟨m, rfl, fun d hd => Nat.lt_succ_of_le (Datum.nestingAll_le_iff.mp (by omega) d hd)⟩

theorem rebuilds_literal {d : Datum} (hd : d.Literal) (hn : d.nesting < n) :
    Rebuilds (recursor n) s d := by
  induction hd generalizing n with
  | @atom a _ hsym =>
    intro w hvisible
    obtain ⟨m, rfl⟩ := Nat.exists_eq_add_of_le' hn
    rw [Expr.ofDatum, Code.ofExpr]
    refine ⟨.atom a, w.heap, ?_, .refl _, Heap.shows_atom _ a⟩
    cases a with
    | sym name => exact absurd rfl (hsym name)
    | _ => rfl
  | @list ds _ ih =>
    obtain ⟨m, rfl, hm⟩ := exists_two_fuel hn
    exact rebuilds_elements .list .list rfl (by decide) rfl (by rw [Expr.ofDatum])
      (fun d hd => ih d hd (hm d hd)) fun w vs hvs => builds_newList hvs
  | @tuple ds _ ih =>
    obtain ⟨m, rfl, hm⟩ := exists_two_fuel hn
    exact rebuilds_elements .tuple .tuple rfl (by decide) rfl (by rw [Expr.ofDatum])
      (fun d hd => ih d hd (hm d hd)) fun w vs hvs => Builds.pure (Heap.shows_tuple hvs)
  | @set ds hkey hapart _ ih =>
    obtain ⟨m, rfl, hm⟩ := exists_two_fuel hn
    refine rebuilds_elements .set .set rfl (by decide) rfl (by rw [Expr.ofDatum])
      (fun d hd => ih d hd (hm d hd)) fun w vs hvs => Builds.heap_bind ?_
    have hpairwise := Datum.pairwise_not_sameKey id hkey hapart (.refl ds)
    rw [insertMembers_shows hvs hkey hpairwise]
    exact builds_newSet hvs
  | @dict es hkey hapart _ _ ihkey ihvalue =>
    intro w hvisible
    obtain ⟨m, rfl⟩ := Nat.exists_eq_add_of_le' (show 2 ≤ n by rw [Datum.nesting] at hn; omega)
    have hparts : ∀ e ∈ es, e.1.nesting < m + 1 ∧ e.2.nesting < m + 1 := by
      intro e he
      obtain ⟨hk, hv⟩ := Datum.nestingEntries_le_iff.mp
        (show Datum.nestingEntries es ≤ m by rw [Datum.nesting] at hn; omega) e he
      exact ⟨Nat.lt_succ_of_le hk, Nat.lt_succ_of_le hv⟩
    rw [Expr.ofDatum, Code.ofExpr_tagged, ← Code.ofExprs_eq_map]
    have hdict : Builtin.dict ∈ Builtin.all := by decide
    refine builds_form hvisible hdict ?_
    have heven : (Code.ofExprs (Expr.ofEntries es)).length % 2 = 0 := by
      rw [length_ofEntries]
      omega
    change Builds w _ (callDict (recursor (m + 1)) (Code.ofExprs (Expr.ofEntries es)) s)
    unfold callDict
    rw [if_neg (by simpa using heven)]
    have hapart' : ([] ++ es).Pairwise fun e e' : Datum × Datum => e'.1.sameKey e.1 = false :=
      Datum.pairwise_not_sameKey Prod.fst hkey hapart (.refl es)
    exact builds_evalEntries hvisible (fun e he => ihkey e he (hparts e he).1)
      (fun e he => ihvalue e he (hparts e he).2) hkey .nil hapart'

end EvalM

/-- The value shows a datum of the same kinds throughout that is equal either way. -/
def Heap.ShowsEqual (h : Heap) (v : Value) (d : Datum) : Prop :=
  ∃ d', h.Shows v d' ∧ Identical d d' ∧ d.equal d' = true ∧ d'.equal d = true

/-- Printed data evaluate to themselves. -/
theorem evalSource_repr {d : Datum} (hd : d.Literal) (indent : Int) (name : String) {s : ScopeRef}
    {w : World} (hvisible : EvalM.Visible w.heap s) :
    ∃ e, Source.parse? ⟨name, d.repr indent⟩ = .ok [e] ∧
      (∀ n, d.nesting < n → EvalM.Builds w (fun h v => h.ShowsEqual v d)
        ((EvalM.recursor n).eval (.ofExpr e) s)) ∧
      (d.nesting < EvalM.ampleFuel → ∃ v h,
        evalSource ⟨name, d.repr indent⟩ s w = (.ok v, { w with heap := h }) ∧
          w.heap.Extends h ∧ h.ShowsEqual v d) := by
  obtain ⟨d', hsame, hparse⟩ := parse_repr hd indent name
  have heval : ∀ n, d.nesting < n → EvalM.Builds w (fun h v => h.ShowsEqual v d)
      ((EvalM.recursor n).eval (.ofExpr (.ofDatum d')) s) := by
    intro n hn
    have hn' : d'.nesting < n :=
      (hsame.nesting_le (Nat.le_refl _)).trans_lt hn
    obtain ⟨v, h, hrun, hext, hv⟩ := EvalM.rebuilds_literal (hsame.literal hd) hn' w hvisible
    exact ⟨v, h, hrun, hext, d', hv, hsame, hsame.equal hd, hsame.symm.equal (hsame.literal hd)⟩
  have hparse? : Source.parse? ⟨name, d.repr indent⟩ = .ok [.ofDatum d'] := by
    unfold Source.parse?
    rw [hparse]
  refine ⟨.ofDatum d', hparse?, heval, fun hn => ?_⟩
  obtain ⟨v, h, hrun, hext, hv⟩ := heval _ hn
  have hexprs : (EvalM.evalExprs [.ofDatum d'] s).run w = (.ok v, { w with heap := h }) := by
    unfold EvalM.evalExprs
    rw [Code.ofExprs, Code.ofExprs, EvalM.evalSequence, run_bind, hrun]
    rfl
  refine ⟨v, h, ?_, hext, hv⟩
  unfold evalSource
  rw [hparse?]
  simp only [hexprs]

/-- A dict in a new environment. Its entries are printed in another order, aligned and broken into
lines. -/
theorem evalSource_repr_aligned :
    let d : Datum := .dict [(.str "name", .set [.int 2, .null, .int 1]),
      (.int 7, .list [.str "\"", .tuple []])]
    let w : World := ⟨(Heap.initial.child Heap.builtinScope).2, [], .empty⟩
    d.repr 0 = "#\x7b\n  \"name\" #[\n    1\n    2\n    null\n  ]\n" ++
      "  7      [\n    \"\\\"\"\n    \x7b\x7d\n  ]\n\x7d" ∧
    ∃ v h, evalSource ⟨"", d.repr 0⟩ (Heap.initial.child Heap.builtinScope).1 w =
      (.ok v, { w with heap := h }) ∧ h.ShowsEqual v d := by
  intro d w
  have hscalar : ∀ a : Atom, (∀ f, a ≠ .float f) → (∀ name, a ≠ .sym name) → (Datum.atom a).Literal :=
    fun a hfloat hsym => .atom (fun f hf => absurd hf (hfloat f)) hsym
  have hset : (Datum.set [.int 2, .null, .int 1]).Literal := by
    refine .set ?_ ?_ ?_
    · decide +kernel
    · decide +kernel
    · simp [hscalar]
  have hlist : (Datum.list [.str "\"", .tuple []]).Literal := by
    refine .list ?_
    simp [hscalar, Literal.tuple]
  have hd : d.Literal := by
    refine .dict ?_ ?_ ?_ ?_
    · decide +kernel
    · decide +kernel
    · simp [hscalar]
    · simp [hset, hlist]
  obtain ⟨e, -, -, hsource⟩ := evalSource_repr hd 0 ""
    (w := w) (EvalM.visible_child EvalM.visible_initial)
  have hnesting : d.nesting < EvalM.ampleFuel := by decide +kernel
  obtain ⟨v, h, hrun, -, hv⟩ := hsource hnesting
  exact ⟨by cbv, v, h, hrun, hv⟩

end EventTally
