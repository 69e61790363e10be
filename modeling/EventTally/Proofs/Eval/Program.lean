import EventTally.Proofs.Eval.Literal
import EventTally.Proofs.Eval.Matching
import EventTally.Proofs.Eval.Preservation
import EventTally.Proofs.Eval.Trees
import Mathlib.Logic.Relation

/-! # Programs are not changed by running them

The trees of a program are loaded into the heap, where they are lists like those that the program
itself makes and changes in place. No evaluation gives a reference to them away, so they stay as
they are, and quoting one of them gives a copy of what was loaded.
-/

namespace EventTally

namespace Heap

/-- The heap with the trees of a program and nothing else. -/
def ofProgram (es : List Expr) : Heap := (initial.load es).2

theorem ofProgram_eq (es : List Expr) : ∃ lists, ofProgram es = { initial with lists } :=
  initial.lists_load es

theorem guards_ofProgram (es : List Expr) : Guards (ofProgram es).cells (ofProgram es) := by
  obtain ⟨lists, heq⟩ := ofProgram_eq es
  constructor
  · exact fun _ _ => id
  · intro i cell hi hcell
    rw [← cells, hi] at hcell
    cases hcell
  · intro r e he
    rw [heq] at he
    simp [entries, initial] at he
  · intro r v hv
    rw [heq] at hv
    simp [members, initial] at hv
  · intro s b hb
    have hbuiltin : ∃ x, b.2 = .builtin x := by
      rw [heq] at hb
      unfold layer initial at hb
      dsimp only at hb
      obtain ⟨id⟩ := s
      cases id with
      | zero =>
        obtain ⟨x, -, rfl⟩ := List.mem_map.mp hb
        exact ⟨x, rfl⟩
      | succ n => cases hb
    obtain ⟨x, hx⟩ := hbuiltin
    rw [hx]
    exact free_of_refs_nil rfl
  · intro r
    rw [heq]
    simp only [closure, initial, List.size_toArray, List.length_nil, Nat.not_lt_zero,
      not_false_eq_true, getElem?_neg, Option.getD_none, and_self]
    exact .value (free_of_refs_nil rfl)

theorem runs_ofProgram (es : List Expr) (i : Nat) (cell : ListCell)
    (hcell : (ofProgram es).cells i = some cell) :
    ∀ v ∈ cell.slots, (Code.value v).Runs (Free (ofProgram es).cells) := by
  obtain ⟨hlt, -⟩ := Array.getElem?_eq_some_iff.mp hcell
  have hplanted : (ofProgram es).Planted 0 := (initial.planted_size.load le_rfl es).1
  obtain ⟨es', ht⟩ := hplanted.trees i (Nat.zero_le i) hlt
  intro v hv
  cases ht with
  | form hcell' helems =>
    obtain rfl := Option.some.inj (hcell.symm.trans hcell')
    obtain ⟨e, ht⟩ := exists_of_mem_trees helems (List.mem_toArray.mp hv)
    obtain ⟨a, rfl⟩ | ⟨r, rfl⟩ := ht.atom_or_list
    · exact .value (free_of_refs_nil rfl)
    · exact .list r

end Heap

section

variable (es : List Expr)

/-- The trees of the program are kept, and no value refers to them. -/
def Contract.ofProgram : Contract :=
  .guarding (Heap.ofProgram es).cells (fun _ _ => True) .same

theorem lawful_ofProgram : (Contract.ofProgram es).Lawful :=
  lawful_guarding (Heap.runs_ofProgram es) (fun _ => trivial) trivial trivial Recoding.faithful_same

theorem framed_ofProgram : (Contract.ofProgram es).Framed := ⟨fun _ _ => id, fun _ _ _ _ => trivial⟩

theorem accord_ofProgram (fuel : Nat) :
    (EvalM.recursor fuel).Accord (EvalM.recursor fuel) (Contract.ofProgram es) :=
  Contract.accord_self (lawful_ofProgram es) (framed_ofProgram es) fuel

end

/-- No form of the tree starts with the symbol `unquote`. -/
inductive Expr.Verbatim : Expr → Prop
  | atom (a : Atom) : Verbatim (.atom a)
  | form {es : List Expr} (hhead : ∀ rest, es ≠ .sym "unquote" :: rest)
      (helems : ∀ e ∈ es, Verbatim e) : Verbatim (.form es)

theorem Expr.Verbatim.tagged {name : String} {es : List Expr} (hname : name ≠ "unquote")
    (hes : ∀ e ∈ es, e.Verbatim) : (Expr.tagged name es).Verbatim := by
  refine .form (fun rest h => ?_) (List.forall_mem_cons.mpr ⟨.atom _, hes⟩)
  cases h
  exact hname rfl

namespace EvalM

variable {w : World} {s : ScopeRef} {n : Nat}

/-- The code resolves to the expression, now and when new objects have been made. -/
def Stands (h : Heap) (c : Code) (e : Expr) : Prop :=
  ∀ w : World, h.Extends w.heap → ∃ c', w.heap.Holds c' e ∧ (resolve c).run w = (.ok c', w)

theorem Stands.of_extends {h h' : Heap} {c : Code} {e : Expr} (hc : Stands h c e)
    (hext : h.Extends h') : Stands h' c e := fun w hext' => hc w (hext.trans hext')

theorem stands_ofExpr (h : Heap) (e : Expr) : Stands h (.ofExpr e) e := by
  intro w _
  refine ⟨.ofExpr e, .parsed e, ?_⟩
  rw [resolve_ofExpr]
  rfl

theorem stands_ofExprs (h : Heap) (es : List Expr) : List.Forall₂ (Stands h) (Code.ofExprs es) es := by
  rw [Code.ofExprs_eq_map]
  exact List.forall₂_map_left_iff.mpr (List.forall₂_same.mpr fun e _ => stands_ofExpr _ e)

theorem stands_slots {h : Heap} {r : ListRef} {es : List Expr} (ht : h.Tree (.list r) (.form es)) :
    List.Forall₂ (Stands h) (h.slots r) es := by
  cases ht with
  | @form _ vs _ hcell helems =>
    have hlength := helems.length_eq
    unfold Heap.slots
    rw [Heap.elems_of_cell hcell]
    refine List.forall₂_iff_get.mpr ⟨by simpa using hlength, fun i hi hi' => ?_⟩
    simp only [List.length_map, List.length_range] at hi
    have hslot : ∀ w : World, h.Extends w.heap → w.heap.slot r i = vs[i] := by
      intro w hext
      simp [Heap.slot, Heap.list, hext.lists _ _ hcell, hi]
    intro w hext
    refine ⟨.value vs[i], .loaded ((Heap.trees_of_extends hext helems).get hi hi'), ?_⟩
    simp only [List.get_eq_getElem, List.getElem_map, List.getElem_range]
    change (Except.ok (Code.value (w.heap.slot r i)), w) = _
    rw [hslot w hext]

theorem run_formOf? {c : Code} {es : List Expr} (hc : w.heap.Holds c (.form es)) :
    ∃ cs, (formOf? c).run w = (.ok (some cs), w) ∧ List.Forall₂ (Stands w.heap) cs es := by
  generalize he : Expr.form es = e at hc
  cases hc with
  | parsed =>
    subst he
    refine ⟨Code.ofExprs es, ?_, stands_ofExprs _ es⟩
    rw [Code.ofExpr]
    rfl
  | loaded ht =>
    subst he
    cases ht with
    | form hcell helems => exact ⟨_, rfl, stands_slots (.form hcell helems)⟩

theorem run_quoteAll {r : Recursor} {cs : List Code} {es : List Expr}
    (hquote : ∀ e ∈ es, ∀ (w : World) c, Stands w.heap c e →
      (r.quote c s).run w = (thaw (.ofExpr e)).run w)
    (hcs : List.Forall₂ (Stands w.heap) cs es) :
    (quoteAll r s cs).run w = (.ok (w.heap.load es).1, { w with heap := (w.heap.load es).2 }) := by
  induction es generalizing w cs with
  | nil =>
    cases hcs
    rw [Heap.load, Datum.ofExprs]
    rfl
  | cons e es ih =>
    obtain ⟨c, cs, hc, htail, rfl⟩ := List.forall₂_cons_right_iff.mp hcs
    obtain ⟨hfirst, hrest⟩ := List.forall_mem_cons.mp hquote
    have hext := (w.heap.tree_thaw e).1
    have htail' : List.Forall₂ (Stands (w.heap.thaw (.ofExpr e)).2) cs es :=
      htail.imp fun _ _ hstands => hstands.of_extends hext
    rw [Heap.load, Datum.ofExprs, quoteAll, run_bind, hfirst w c hc]
    change (quoteAll r s cs >>= _).run { w with heap := (w.heap.thaw (.ofExpr e)).2 } = _
    rw [run_bind, ih hrest htail']
    rfl

theorem run_headOf? {cs : List Code} {es : List Expr} (hcs : List.Forall₂ (Stands w.heap) cs es) :
    ∃ head, (headOf? cs).run w = (.ok head, w) ∧
      ∀ name, head = some name → ∃ rest, es = .sym name :: rest := by
  cases hcs with
  | nil => exact ⟨none, rfl, fun _ hnone => by cases hnone⟩
  | @cons c e cs es hc _ =>
    obtain ⟨c', hc', hresolve⟩ := hc w (.refl _)
    change ∃ head, (resolve c >>= _).run w = (.ok head, w) ∧ _
    rw [run_bind, hresolve]
    dsimp only
    split
    · refine ⟨_, rfl, ?_⟩
      rintro name ⟨⟩
      cases e with
      | atom a =>
        cases hc'.eq_atom
        exact ⟨es, rfl⟩
      | form es =>
        obtain ⟨_, hform, -⟩ := run_formOf? hc'
        cases hform
    · exact ⟨none, rfl, fun _ hnone => by cases hnone⟩

theorem run_quote {c : Code} {e : Expr} (hc : Stands w.heap c e) (hverbatim : e.Verbatim)
    (hn : (Datum.ofExpr e).nesting < n) :
    ((recursor n).quote c s).run w = (thaw (.ofExpr e)).run w := by
  induction hverbatim generalizing w c n with
  | atom a =>
    obtain ⟨n, rfl⟩ : ∃ k, n = k + 1 := ⟨n - 1, by omega⟩
    obtain ⟨c', hc', hresolve⟩ := hc w (.refl _)
    cases hc'.eq_atom
    rw [Datum.ofExpr]
    change (quoteStep (recursor n) c s).run w = _
    unfold quoteStep
    rw [run_bind, hresolve]
    rfl
  | @form es hhead helems ih =>
    obtain ⟨n, rfl⟩ : ∃ k, n = k + 1 := ⟨n - 1, by omega⟩
    obtain ⟨c', hc', hresolve⟩ := hc w (.refl _)
    obtain ⟨cs, hform, hcs⟩ := run_formOf? hc'
    obtain ⟨head, hrun, hsym⟩ := run_headOf? hcs
    have hne : head ≠ some "unquote" := by
      intro heq
      obtain ⟨rest, hrest⟩ := hsym _ heq
      exact hhead rest hrest
    rw [Datum.ofExpr, Datum.nesting] at hn
    have hless (e : Expr) (he : e ∈ es) : (Datum.ofExpr e).nesting < n := by
      have hmem : Datum.ofExpr e ∈ Datum.ofExprs es := by
        rw [Expr.ofExprs_eq]
        exact List.mem_map_of_mem he
      have hle := Datum.nesting_le_of_mem hmem
      omega
    have hall := run_quoteAll (r := recursor n) (s := s)
      (fun e he w c hc => ih e he hc (hless e he)) hcs
    have hstep : (quoteStep (recursor n) c s).run w =
        (quoteStep.quoteForm (recursor n) s c').run w := by
      unfold quoteStep
      rw [run_bind, hresolve]
      cases hc'.form_or_list with
      | inl hform =>
        obtain ⟨cs, rfl⟩ := hform
        rfl
      | inr hlist =>
        obtain ⟨r, rfl⟩ := hlist
        rfl
    change (quoteStep (recursor n) c s).run w = _
    rw [hstep]
    unfold quoteStep.quoteForm
    rw [run_bind, hform]
    dsimp only [Option.getD_some]
    rw [run_bind, hrun]
    dsimp only
    rw [if_neg hne, run_bind, hall, Datum.ofExpr]
    rfl

theorem run_eval_quote {c : Code} {e : Expr} (hc : w.heap.Holds c (.quoted e))
    (hverbatim : e.Verbatim) (hquote : w.heap.lookup s "quote" = some (.builtin .quote))
    (hn : (Datum.ofExpr e).nesting + 2 ≤ n) :
    ((recursor n).eval c s).run w = (thaw (.ofExpr e)).run w := by
  obtain ⟨n, rfl⟩ : ∃ k, n = k + 2 := ⟨n - 2, by omega⟩
  obtain ⟨cs, hform, hcs⟩ := run_formOf? hc
  obtain ⟨head, cs, hhead, htail, rfl⟩ := List.forall₂_cons_right_iff.mp hcs
  obtain ⟨arg, cs, harg, hnil, rfl⟩ := List.forall₂_cons_right_iff.mp htail
  cases hnil
  obtain ⟨c', hc', hresolve⟩ := hhead w (.refl _)
  cases hc'.eq_atom
  have hcopy := run_quote (s := s) (n := n + 1) harg hverbatim (by omega)
  have hquoted : ((recursor (n + 1)).eval head s).run w = (.ok (.builtin .quote), w) := by
    change (resolve head >>= _).run w = _
    rw [run_bind, hresolve]
    change (heap >>= _).run w = _
    rw [run_heap_bind, hquote]
    rfl
  have hstep : ((recursor (n + 2)).eval c s).run w = (evalForm (recursor (n + 1)) c s).run w := by
    cases hc.form_or_list with
    | inl hform =>
      obtain ⟨cs, rfl⟩ := hform
      rfl
    | inr hlist =>
      obtain ⟨r, rfl⟩ := hlist
      rfl
  rw [hstep]
  unfold evalForm
  rw [run_bind, hform]
  dsimp only
  rw [run_bind, hquoted]
  dsimp only
  rw [run_bind, hform]
  change (withFrame "quote" ((recursor (n + 1)).quote arg s)).run w = _
  rw [run_withFrame, hcopy]
  rfl

theorem builds_eval_quote {c : Code} {e : Expr} (hc : w.heap.Holds c (.quoted e))
    (hverbatim : e.Verbatim) (hquote : w.heap.lookup s "quote" = some (.builtin .quote))
    (hn : (Datum.ofExpr e).nesting + 2 ≤ n) :
    Builds w (fun h v => h.Tree v e) ((recursor n).eval c s) := by
  obtain ⟨hext, ht⟩ := w.heap.tree_thaw e
  exact ⟨_, _, run_eval_quote hc hverbatim hquote hn, hext, ht⟩

end EvalM

/-- What a host that runs a program has: the values that it got and the world. -/
structure Session where
  values : List Value
  world : World

namespace Session

/-- After a computation: a value that it gives is kept. -/
def after (σ : Session) (act : EvalM Value) : Session :=
  match act.run σ.world with
  | (.ok v, w) => { values := v :: σ.values, world := w }
  | (.error _, w) => { σ with world := w }

/-- The program has been parsed and loaded. -/
def start (es : List Expr) (store : Store) : Session :=
  { values := [], world := { heap := .ofProgram es, journal := [], store } }

/-- What a host can do: evaluate expressions, parsed or loaded, one after the other, call
functions, make values of data and new scopes, and bind names. -/
inductive Step (es : List Expr) : Session → Session → Prop
  | eval (σ : Session) {cs : List Code} (hcs : ∀ c ∈ cs, ∃ e, (Heap.ofProgram es).Holds c e)
      (fuel : Nat) (s : ScopeRef) :
      Step es σ (σ.after ((EvalM.recursor fuel).eval (EvalM.bodyOf cs) s))
  | call (σ : Session) {args : List Value} (hargs : ∀ v ∈ args, v ∈ σ.values) (fuel : Nat)
      (ref : ClosureRef) : Step es σ (σ.after (EvalM.applyClosure (EvalM.recursor fuel) ref args))
  | make (σ : Session) {d : Datum} (hd : d.Sound) : Step es σ (σ.after (EvalM.thaw d))
  | scope (σ : Session) (base : ScopeRef) :
      Step es σ { σ with world := { σ.world with heap := (σ.world.heap.child base).2 } }
  | bind (σ : Session) {v : Value} (hv : v ∈ σ.values) (s : ScopeRef) (name : String) :
      Step es σ { σ with world := { σ.world with heap := σ.world.heap.bind s name v } }

/-- The trees are kept, and the host has no reference to them. -/
structure Safe (es : List Expr) (σ : Session) : Prop where
  guards : Heap.Guards (Heap.ofProgram es).cells σ.world.heap
  free : ∀ v ∈ σ.values, Heap.Free (Heap.ofProgram es).cells v

variable {es : List Expr} {σ σ' : Session}

theorem safe_start (es : List Expr) (store : Store) : Safe es (start es store) :=
  ⟨Heap.guards_ofProgram es, fun _ hv => by cases hv⟩

theorem Safe.after (hσ : Safe es σ) {act : EvalM Value}
    (hact : (Contract.ofProgram es).Accords (Heap.Free (Heap.ofProgram es).cells) act act) :
    Safe es (σ.after act) := by
  obtain ⟨hguards, hresult⟩ := hact.keeps σ.world hσ.guards
  unfold Session.after
  rcases hrun : act.run σ.world with ⟨f | v, w⟩
  · rw [hrun] at hguards
    exact ⟨hguards, hσ.free⟩
  · rw [hrun] at hguards hresult
    exact ⟨hguards, List.forall_mem_cons.mpr ⟨hresult, hσ.free⟩⟩

mutual

theorem runs_ofExpr {clean : Value → Prop} (hatom : ∀ a, clean (.atom a)) (e : Expr) :
    (Code.ofExpr e).Runs clean := by
  match e with
  | .atom a =>
    rw [Code.ofExpr]
    exact .value (hatom a)
  | .form es =>
    rw [Code.ofExpr]
    exact .form (runs_ofExprs hatom es)

theorem runs_ofExprs {clean : Value → Prop} (hatom : ∀ a, clean (.atom a)) (es : List Expr) :
    ∀ c ∈ Code.ofExprs es, c.Runs clean := by
  match es with
  | [] =>
    rw [Code.ofExprs]
    rintro c ⟨⟩
  | e :: es =>
    rw [Code.ofExprs]
    exact List.forall_mem_cons.mpr ⟨runs_ofExpr hatom e, runs_ofExprs hatom es⟩

end

theorem runs_holds {h : Heap} {c : Code} {e : Expr} (hc : h.Holds c e) :
    (Contract.ofProgram es).Runs c := by
  cases hc with
  | parsed => exact runs_ofExpr (lawful_ofProgram es).atom e
  | loaded ht =>
    obtain ⟨a, rfl⟩ | ⟨r, rfl⟩ := ht.atom_or_list
    · exact .value (Heap.free_of_refs_nil rfl)
    · exact .list r

theorem Safe.step (hσ : Safe es σ) (hstep : Step es σ σ') : Safe es σ' := by
  cases hstep with
  | eval hcs fuel s =>
    apply hσ.after
    apply (accord_ofProgram es fuel).eval trivial
    apply Contract.runs_bodyOf (lawful_ofProgram es)
    intro c hc
    obtain ⟨e, he⟩ := hcs c hc
    exact runs_holds he
  | call hargs fuel ref =>
    apply hσ.after
    exact Contract.accords_applyClosure (lawful_ofProgram es) (framed_ofProgram es)
      (accord_ofProgram es fuel) ref fun v hv => hσ.free v (hargs v hv)
  | make hd =>
    apply hσ.after
    exact Contract.accords_thaw (lawful_ofProgram es) hd
  | scope base => exact ⟨hσ.guards.child base, hσ.free⟩
  | bind hv s name => exact ⟨hσ.guards.bind name (hσ.free _ hv), hσ.free⟩

theorem Safe.run (hσ : Safe es σ) (hrun : Relation.ReflTransGen (Step es) σ σ') : Safe es σ' := by
  induction hrun with
  | refl => exact hσ
  | tail _ hstep ih => exact ih.step hstep

/-- Whatever a host does with a program and the program does, each list of its trees is what was
loaded, so that the trees are still the parsed expressions; and wherever `(quote e)` is evaluated, if
nothing is unquoted in `e` and `quote` is the builtin, the value is a copy of `e`. -/
theorem trees_kept (es : List Expr) (store : Store)
    (hrun : Relation.ReflTransGen (Step es) (start es store) σ) :
    (∀ r : ListRef, r.id < (Heap.ofProgram es).lists.size →
      σ.world.heap.list r = (Heap.ofProgram es).list r) ∧
    (Heap.initial.load es).1.map σ.world.heap.datum = Datum.ofExprs es ∧
    ∀ c e s fuel, (Heap.ofProgram es).Holds c (.quoted e) → e.Verbatim →
      σ.world.heap.lookup s "quote" = some (.builtin .quote) →
      (Datum.ofExpr e).nesting + 2 ≤ fuel →
      ∃ copy w, ((EvalM.recursor fuel).eval c s).run σ.world = (.ok copy, w) ∧
        w.heap.datum copy = .ofExpr e := by
  have hguards := ((safe_start es store).run hrun).guards
  refine ⟨?_, ?_, ?_⟩
  · intro r hr
    have hcell : (Heap.ofProgram es).cells r.id = _ := Array.getElem?_eq_getElem hr
    unfold Heap.list
    rw [hguards.cell r.id _ hcell, ← hcell]
    rfl
  · exact Heap.map_datum_trees (hguards.trees (Heap.initial.trees_load es).2)
  · intro c e s fuel hc hverbatim hquote hfuel
    obtain ⟨copy, h, hresult, -, hshows⟩ :=
      EvalM.builds_eval_quote (hguards.holds hc) hverbatim hquote hfuel
    exact ⟨copy, _, hresult, hshows.datum⟩

def putProgram : List Expr :=
  [.form [.sym "def", .sym "p", .quoted (.form [.atom (.int 1), .atom (.int 2)])],
    .form [.sym "put", .sym "p", .atom (.int 0), .atom (.int 9)]]

/-- The session after the loaded trees of `putProgram` have been evaluated. -/
def afterPut : Session :=
  (start putProgram .empty).after ((EvalM.recursor 9).eval
    (EvalM.bodyOf ((Heap.initial.load putProgram).1.map .value)) Heap.builtinScope)

/-- The copy that `p` is bound to has been changed, the tree it was copied from has not. -/
theorem trees_kept_put :
    Relation.ReflTransGen (Step putProgram) (start putProgram .empty) afterPut ∧
    ((afterPut.world.heap.lookup Heap.builtinScope "p").any fun v =>
      (afterPut.world.heap.datum v).equal (.list [.atom (.int 9), .atom (.int 2)])) = true ∧
    (Heap.initial.load putProgram).1.map afterPut.world.heap.datum = Datum.ofExprs putProgram ∧
    Expr.Verbatim (.form [.atom (.int 1), .atom (.int 2)]) ∧
    ∃ copy w, ((EvalM.recursor 9).eval
        (.ofExpr (.quoted (.form [.atom (.int 1), .atom (.int 2)]))) Heap.builtinScope).run
        afterPut.world = (.ok copy, w) ∧
      w.heap.datum copy = .list [.atom (.int 1), .atom (.int 2)] := by
  have hrun : Relation.ReflTransGen (Step putProgram) (start putProgram .empty) afterPut := by
    apply Relation.ReflTransGen.single
    apply Step.eval
    intro c hc
    obtain ⟨v, hv, rfl⟩ := List.mem_map.mp hc
    obtain ⟨e, ht⟩ := Heap.exists_of_mem_trees (Heap.initial.trees_load putProgram).2 hv
    exact ⟨e, .loaded ht⟩
  have hverbatim : Expr.Verbatim (.form [.atom (.int 1), .atom (.int 2)]) := by
    refine .form (fun rest h => by cases h) fun e he => ?_
    rcases List.mem_pair.mp he with rfl | rfl
    · exact .atom _
    · exact .atom _
  have hkept := trees_kept putProgram .empty hrun
  refine ⟨hrun, by decide +kernel, hkept.2.1, hverbatim, ?_⟩
  have hquote : afterPut.world.heap.lookup Heap.builtinScope "quote" = some (.builtin .quote) := by
    cbv
  obtain ⟨copy, w, hresult, hdatum⟩ := hkept.2.2 _ _ Heap.builtinScope 9 (.parsed _) hverbatim hquote
    (by decide +kernel)
  refine ⟨copy, w, hresult, ?_⟩
  rw [hdatum]
  simp only [Datum.ofExpr, Datum.ofExprs]

end Session

end EventTally
