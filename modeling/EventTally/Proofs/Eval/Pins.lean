import EventTally.Proofs.Datum.Keys
import EventTally.Proofs.Eval.Frame
import EventTally.Proofs.Eval.Program
import EventTally.Proofs.Eval.Yields
import EventTally.Proofs.Renaming.Beside

/-! # Pins

A pin `^x` in a quoted form is `(quote (unquote x))`, so quoting leaves a form there that quotes the
value of `x`. That form is a list of its own, which nothing that is evaluated later can reach, and when
it is evaluated it gives a copy of the value (`pin_stands`).

Quoting walks the value again as if it were code: a list in it that starts with the symbol `unquote` is
not copied but evaluated. Only lists are walked, so this concerns the lists of a list and not what is in
other collections.
-/

namespace EventTally

/-- No list in the datum, down through lists, starts with the symbol `unquote`. -/
inductive Datum.Verbatim : Datum → Prop
  | list {ds : List Datum} (hhead : ds.head? ≠ some (.sym "unquote")) (helems : ∀ d ∈ ds, Verbatim d) :
      Verbatim (.list ds)
  | other {d : Datum} (h : ∀ ds, d ≠ .list ds) : Verbatim d

namespace EvalM

variable {w : World} {s : ScopeRef} {n : Nat}

/-- The code resolves to a value that shows the datum, now and when new objects have been made. -/
def Denotes (h : Heap) (c : Code) (d : Datum) : Prop :=
  ∀ w : World, h.Extends w.heap → ∃ v, w.heap.Shows v d ∧ (resolve c).run w = (.ok (.value v), w)

theorem Denotes.of_extends {h h' : Heap} {c : Code} {d : Datum} (hc : Denotes h c d)
    (hext : h.Extends h') : Denotes h' c d := fun w hext' => hc w (hext.trans hext')

theorem denotes_slots {h : Heap} {r : ListRef} {ds : List Datum} (hr : h.Shows (.list r) (.list ds)) :
    List.Forall₂ (Denotes h) (h.slots r) ds := by
  have hplaces := hr.places
  unfold Heap.places at hplaces
  unfold Heap.slots
  rw [List.forall₂_map_left_iff] at hplaces ⊢
  exact hplaces.imp fun i d hi w hext => ⟨w.heap.slot r i, hi w.heap hext.grown, rfl⟩

theorem headOf?_ne_unquote {cs : List Code} {ds : List Datum}
    (hcs : List.Forall₂ (Denotes w.heap) cs ds) (hhead : ds.head? ≠ some (.sym "unquote")) :
    ∃ head, (headOf? cs).run w = (.ok head, w) ∧ head ≠ some "unquote" := by
  cases hcs with
  | nil => exact ⟨none, rfl, nofun⟩
  | @cons c d cs ds hc _ =>
    obtain ⟨v, hv, hresolve⟩ := hc w (.refl _)
    change ∃ head, (resolve c >>= _).run w = (.ok head, w) ∧ _
    rw [run_bind, hresolve]
    dsimp only
    split
    · next name heq =>
      obtain rfl : v = .atom (.sym name) := Code.value.inj heq
      refine ⟨_, rfl, fun hname => hhead ?_⟩
      have hd : Datum.atom (.sym name) = d := hv.view
      rw [List.head?_cons, ← hd, Option.some.inj hname]
    · exact ⟨none, rfl, nofun⟩

theorem Shows.exists_list {h : Heap} {v : Value} {ds : List Datum} (hv : h.Shows v (.list ds)) :
    ∃ r, v = .list r := by
  have hview := hv.view
  cases v with
  | list r => exact ⟨r, rfl⟩
  | _ => cases hview

theorem builds_quoteValues {r : Recursor} {cs : List Code} {ds : List Datum}
    (hquote : ∀ d ∈ ds, ∀ (w : World) c, Denotes w.heap c d →
      Builds w (fun h v => h.Shows v d) (r.quote c s))
    (hcs : List.Forall₂ (Denotes w.heap) cs ds) :
    Builds w (fun h vs => List.Forall₂ h.Shows vs ds) (quoteAll r s cs) := by
  induction ds generalizing w cs with
  | nil =>
    cases hcs
    exact Builds.pure .nil
  | cons d ds ih =>
    obtain ⟨c, cs, hc, htail, rfl⟩ := List.forall₂_cons_right_iff.mp hcs
    obtain ⟨hfirst, hrest⟩ := List.forall_mem_cons.mp hquote
    refine (hfirst w c hc).bind fun v h hext hv => ?_
    have htail' := htail.imp fun _ _ hdenotes => hdenotes.of_extends hext
    refine (ih hrest htail').bind fun vs h' hext' hvs => ?_
    exact Builds.pure (.cons (hv.mono hext') hvs)

theorem builds_quoteValue {c : Code} {d : Datum} (hc : Denotes w.heap c d) (hverbatim : d.Verbatim)
    (hn : d.nesting < n) : Builds w (fun h v => h.Shows v d) ((recursor n).quote c s) := by
  induction hverbatim generalizing w c n with
  | @list ds hhead helems ih =>
    obtain ⟨n, rfl⟩ : ∃ k, n = k + 1 := ⟨n - 1, by omega⟩
    obtain ⟨v, hv, hresolve⟩ := hc w (.refl _)
    obtain ⟨r, rfl⟩ := Shows.exists_list hv
    have hcs := denotes_slots hv
    obtain ⟨head, hrun, hne⟩ := headOf?_ne_unquote hcs hhead
    rw [Datum.nesting] at hn
    have hall : Builds w (fun h v => h.Shows v (.list ds))
        (quoteAll (recursor n) s (w.heap.slots r) >>= newList) := by
      refine (builds_quoteValues (fun d hd w c hc => ih d hd hc ?_) hcs).bind
        fun vs h _ hvs => builds_newList hvs
      have := Datum.nesting_le_of_mem hd
      omega
    refine hall.congr ?_
    have hstep : ((recursor (n + 1)).quote c s).run w =
        (quoteStep.quoteForm (recursor n) s (.value (.list r))).run w := by
      change (quoteStep (recursor n) c s).run w = _
      unfold quoteStep
      rw [run_bind, hresolve]
    have hform : (formOf? (.value (.list r))).run w = (.ok (some (w.heap.slots r)), w) := rfl
    rw [hstep]
    unfold quoteStep.quoteForm
    rw [run_bind, hform]
    dsimp only [Option.getD_some]
    rw [run_bind, hrun]
    dsimp only
    rw [if_neg hne]
  | @other d hlist =>
    obtain ⟨n, rfl⟩ : ∃ k, n = k + 1 := ⟨n - 1, by omega⟩
    obtain ⟨v, hv, hresolve⟩ := hc w (.refl _)
    refine (Builds.pure hv).congr ?_
    change (quoteStep (recursor n) c s).run w = _
    unfold quoteStep
    rw [run_bind, hresolve]
    cases v with
    | list r =>
      have hview : Datum.list _ = d := hv.view
      exact absurd hview.symm (hlist _)
    | _ => rfl

/-- The elements of a form that quotes a value. -/
def pinned (v : Value) : List Value := [.sym "quote", v]

theorem builds_eval_pinned {r : ListRef} {v : Value} {d : Datum} (hr : w.heap.elems r = pinned v)
    (hv : w.heap.Shows v d) (hverbatim : d.Verbatim)
    (hquote : w.heap.lookup s "quote" = some (.builtin .quote)) (hn : d.nesting + 2 ≤ n) :
    Builds w (fun h u => h.Shows u d) ((recursor n).eval (.value (.list r)) s) := by
  obtain ⟨n, rfl⟩ : ∃ k, n = k + 2 := ⟨n - 2, by omega⟩
  have hslots : w.heap.slots r = [.slot r 0, .slot r 1] := by
    unfold Heap.slots
    rw [hr]
    rfl
  have hslot : Denotes w.heap (.slot r 1) d := by
    intro w' hext
    have hget : (w.heap.elems r)[1]? = some v := by
      rw [hr]
      rfl
    have hread := Heap.slot_eq_elems (hext.grown.elems_getElem? hget)
    refine ⟨v, hv.mono hext, ?_⟩
    rw [← hread]
    rfl
  obtain ⟨copy, h, hcopy, hext, hshows⟩ :=
    (builds_quoteValue (s := s) (n := n + 1) hslot hverbatim (by omega)).withFrame "quote"
  refine ⟨copy, h, ?_, hext, hshows⟩
  have hhead : ((recursor (n + 1)).eval (.slot r 0) s).run w = (.ok (.builtin .quote), w) := by
    have hget : (w.heap.elems r)[0]? = some (.sym "quote") := by
      rw [hr]
      rfl
    have hresolve : (resolve (.slot r 0)).run w = (.ok (.sym "quote"), w) := by
      have hread := Heap.slot_eq_elems hget
      change (Except.ok (Code.value (w.heap.slot r 0)), w) = _
      rw [hread]
    change (resolve (.slot r 0) >>= _).run w = _
    rw [run_bind, hresolve]
    change (heap >>= _).run w = _
    rw [run_heap_bind, hquote]
    rfl
  have hform : (formOf? (.value (.list r))).run w = (.ok (some [.slot r 0, .slot r 1]), w) := by
    rw [← hslots]
    rfl
  change (evalForm (recursor (n + 1)) (.value (.list r)) s).run w = _
  unfold evalForm
  rw [run_bind, hform]
  dsimp only
  rw [run_bind, hhead]
  dsimp only
  rw [run_bind, hform]
  exact hcopy

end EvalM

/-- A pin of `x` is at a place in the tree that quoting leaves: not in a form that is unquoted. -/
inductive Expr.PinAt (x : Expr) : Expr → List Nat → Prop
  | here : PinAt x (pinned x) []
  | inside {es : List Expr} {i : Nat} {e : Expr} {path : List Nat} (hi : es[i]? = some e)
      (hhead : ∀ rest, es ≠ .sym "unquote" :: rest) (h : PinAt x e path) : PinAt x (.form es) (i :: path)

/-- The value at a place down through lists. -/
def Heap.at? (h : Heap) : Value → List Nat → Option Value
  | v, [] => some v
  | .list r, i :: path => (h.elems r)[i]?.bind (h.at? · path)
  | _, _ :: _ => none

namespace EvalM

/-- Quotes what is in the tree before a place. -/
def quoteBefore (s : ScopeRef) : Nat → Expr → List Nat → EvalM Unit
  | n + 1, .form es, i :: path => do
    let _ ← quoteAll (recursor n) s (Code.ofExprs (es.take i))
    quoteBefore s n (es[i]?.getD (.atom .null)) path
  | _, _, _ => pure ()

/-- A list of the second heap that is the image of none of the first. -/
def Spare (ρ : Renaming) (h : Heap) (r : ListRef) : Prop := ∀ i < h.lists.size, ρ.lists i ≠ r.id

/-- The place leads through lists that are not images to one with the given elements. -/
inductive Leads (ρ : Renaming) (h h' : Heap) (target : List Value) : List Nat → Value → Prop
  | here {r : ListRef} (hspare : Spare ρ h r)
      (hcell : h'.lists[r.id]? = some { slots := target.toArray, size := target.length }) :
      Leads ρ h h' target [] (.list r)
  | inside {r : ListRef} {vs : List Value} {i : Nat} {v : Value} {path : List Nat} (hspare : Spare ρ h r)
      (hcell : h'.lists[r.id]? = some { slots := vs.toArray, size := vs.length }) (hi : vs[i]? = some v)
      (hrest : Leads ρ h h' target path v) : Leads ρ h h' target (i :: path) (.list r)

variable {ρ ρ' : Renaming} {h₁ h₁' h₂ h₂' : Heap} {target : List Value} {path : List Nat} {v : Value}

theorem Spare.moves (hmoves : Heap.Moves ρ ρ' h₁ h₁' h₂ h₂') {r : ListRef} (hr : r.id < h₁'.lists.size)
    (hspare : Spare ρ h₁ r) : Spare ρ' h₂ r ∧ h₂'.lists[r.id]? = h₁'.lists[r.id]? :=
  hmoves.lists.kept hr hspare

theorem Leads.moves (hmoves : Heap.Moves ρ ρ' h₁ h₁' h₂ h₂') (h : Leads ρ h₁ h₁' target path v) :
    Leads ρ' h₂ h₂' target path v := by
  induction h with
  | here hspare hcell =>
    obtain ⟨hspare, hsame⟩ := hspare.moves hmoves (Array.getElem?_eq_some_iff.mp hcell).1
    exact .here hspare (hsame.trans hcell)
  | inside hspare hcell hi _ ih =>
    obtain ⟨hspare, hsame⟩ := hspare.moves hmoves (Array.getElem?_eq_some_iff.mp hcell).1
    exact .inside hspare (hsame.trans hcell) hi ih

theorem Leads.at? (h : Leads ρ h₁ h₁' target path v) :
    ∃ r, h₁'.at? v path = some (.list r) ∧ h₁'.elems r = target := by
  induction h with
  | here _ hcell => exact ⟨_, rfl, Heap.elems_of_cell hcell⟩
  | inside _ hcell hi _ ih =>
    obtain ⟨r, hat, helems⟩ := ih
    refine ⟨r, ?_, helems⟩
    rw [Heap.at?, Heap.elems_of_cell hcell, hi]
    exact hat

theorem Leads.newList {w w' : World} (hbeside : Beside ρ w w') {vs : List Value} {i : Nat}
    (hi : vs[i]? = some v) (h : Leads ρ w.heap w'.heap target path v) :
    Leads ρ w.heap (w'.heap.newList vs).2 target (i :: path) (.list (w'.heap.newList vs).1) := by
  have hmoves := Heap.Moves.of_extends ρ w.heap (.newList w'.heap vs)
  refine .inside (fun i hi => ?_) Array.getElem?_push_size hi (h.moves hmoves)
  exact (hbeside.copies.lists.lt hi).ne

section

variable {ρ : Renaming} {w w' : World} {s s' : ScopeRef} {n : Nat}

section

variable (hbeside : Beside ρ w w') (hs : w.heap.HasScope s) (hscope : ρ.scope s = s')
include hbeside hs hscope

theorem beside_eval (n : Nat) (e : Expr) {v : Value} {w₁' : World}
    (hrun : ((recursor n).eval (.ofExpr e) s').run w' = (.ok v, w₁')) :
    ∃ ρ' w₁, Heap.Moves ρ ρ' w.heap w'.heap w₁.heap w₁'.heap ∧ Beside ρ' w₁ w₁' := by
  have hmirrors (P : Pairing) (s : ScopeRef) : P.Mirrors P.ρ.value ((recursor n).eval (.ofExpr e) s)
      ((recursor n).eval (.ofExpr e) (P.ρ.scope s)) := by
    have heval := (mirrored_recursor P n).eval (.ofExpr e) s
    rwa [Renaming.code_ofExpr] at heval
  obtain ⟨ρ', hmoves, hbeside', -⟩ := beside_source hmirrors hbeside hs hscope
  rw [hrun] at hmoves hbeside'
  exact ⟨ρ', _, hmoves, hbeside'⟩

theorem beside_quoteAll (n : Nat) (es : List Expr) {vs : List Value} {w₁' : World}
    (hrun : (quoteAll (recursor n) s' (Code.ofExprs es)).run w' = (.ok vs, w₁')) :
    ∃ ρ' w₁, Heap.Moves ρ ρ' w.heap w'.heap w₁.heap w₁'.heap ∧ Beside ρ' w₁ w₁' := by
  have hmirrors (P : Pairing) (s : ScopeRef) : P.Mirrors (List.map P.ρ.value)
      (quoteAll (recursor n) s (Code.ofExprs es))
      (quoteAll (recursor n) (P.ρ.scope s) (Code.ofExprs es)) := by
    have hquote := mirrors_quoteAll (mirrored_recursor P n) s (Code.ofExprs es)
    rwa [← Renaming.codes_eq_map, Renaming.codes_ofExprs] at hquote
  obtain ⟨ρ', hmoves, hbeside', -⟩ := beside_source (g := fun ρ => List.map ρ.value)
    (x := fun s => quoteAll (recursor n) s (Code.ofExprs es)) hmirrors hbeside hs hscope
  rw [hrun] at hmoves hbeside'
  exact ⟨ρ', _, hmoves, hbeside'⟩

end

theorem quoteAll_append (r : Recursor) (s : ScopeRef) (cs cs' : List Code) :
    quoteAll r s (cs ++ cs') = do
      let vs ← quoteAll r s cs
      let vs' ← quoteAll r s cs'
      return vs ++ vs' := by
  induction cs with
  | nil => simp [quoteAll]
  | cons c cs ih => simp [quoteAll, ih]

theorem run_quote_form {es : List Expr} (hhead : ∀ rest, es ≠ .sym "unquote" :: rest) :
    ((recursor (n + 1)).quote (.ofExpr (.form es)) s).run w =
      (quoteAll (recursor n) s (Code.ofExprs es) >>= newList).run w := by
  have hcs : List.Forall₂ (Stands w.heap) (Code.ofExprs es) es := by
    rw [Code.ofExprs_eq_map]
    exact List.forall₂_map_left_iff.mpr (List.forall₂_same.mpr fun e _ => stands_ofExpr _ e)
  obtain ⟨head, hrun, hsym⟩ := run_headOf? hcs
  have hne : head ≠ some "unquote" := by
    intro heq
    obtain ⟨rest, hrest⟩ := hsym _ heq
    exact hhead rest hrest
  have hform : (formOf? (.form (Code.ofExprs es))).run w = (.ok (some (Code.ofExprs es)), w) := rfl
  rw [Code.ofExpr]
  change (quoteStep.quoteForm (recursor n) s (.form (Code.ofExprs es))).run w = _
  unfold quoteStep.quoteForm
  rw [run_bind, hform]
  dsimp only [Option.getD_some]
  rw [run_bind, hrun]
  dsimp only
  rw [if_neg hne]

theorem quote_unquote (n : Nat) (x : Expr) (s : ScopeRef) :
    (recursor (n + 1)).quote (.ofExpr (.tagged "unquote" [x])) s = (recursor n).eval (.ofExpr x) s := by
  simp only [Expr.tagged, Code.ofExpr, Code.ofExprs]
  rfl

theorem run_quote_pinned (x : Expr) :
    ((recursor (n + 2)).quote (.ofExpr (.pinned x)) s).run w =
      ((recursor n).eval (.ofExpr x) s >>= fun v => newList (pinned v)).run w := by
  have hhead : ∀ rest, [.sym "quote", Expr.tagged "unquote" [x]] ≠ .sym "unquote" :: rest := by simp
  have hsym : (recursor (n + 1)).quote (.ofExpr (.sym "quote")) s = pure (.sym "quote") := by
    rw [Code.ofExpr]
    rfl
  change ((recursor (n + 2)).quote (.ofExpr (.form [.sym "quote", .tagged "unquote" [x]])) s).run w = _
  rw [run_quote_form hhead]
  simp [Code.ofExprs, quoteAll, hsym, quote_unquote, pinned]

theorem eq_of_run_newList {vs : List Value} {u : Value} {w₁ : World}
    (h : (newList vs).run w = (.ok u, w₁)) :
    .list (w.heap.newList vs).1 = u ∧ { w with heap := (w.heap.newList vs).2 } = w₁ :=
  ⟨Except.ok.inj (Prod.mk.inj h).1, (Prod.mk.inj h).2⟩

theorem length_of_quoteAll {r : Recursor} {cs : List Code} {vs : List Value} {w₁ : World}
    (h : (quoteAll r s cs).run w = (.ok vs, w₁)) : vs.length = cs.length := by
  induction cs generalizing w vs w₁ with
  | nil =>
    cases h
    rfl
  | cons c cs ih =>
    obtain ⟨v, w₀, -, hrest⟩ := run_bind_ok.mp h
    obtain ⟨vs', w₂, hvs, hrest⟩ := run_bind_ok.mp hrest
    cases hrest
    rw [List.length_cons, List.length_cons, ih hvs]

theorem leads_quote {x e : Expr} {path : List Nat} (hpin : x.PinAt e path) (hbeside : Beside ρ w w')
    (hs : w.heap.HasScope s) (hscope : ρ.scope s = s') {u : Value} {w₂' : World}
    (hrun : ((recursor n).quote (.ofExpr e) s').run w' = (.ok u, w₂')) :
    ∃ ρ' w₂, Heap.Moves ρ ρ' w.heap w'.heap w₂.heap w₂'.heap ∧ Beside ρ' w₂ w₂' ∧
      ∃ w₀ v w₁, (quoteBefore s' n e path).run w' = (.ok (), w₀) ∧
        ((recursor (n - path.length - 2)).eval (.ofExpr x) s').run w₀ = (.ok v, w₁) ∧
        Leads ρ' w₂.heap w₂'.heap (pinned v) path u := by
  induction hpin generalizing ρ w w' n u w₂' with
  | here =>
    obtain ⟨n, rfl⟩ : ∃ k, n = k + 2 := by
      match n with
      | 0 | 1 => cases hrun
      | n + 2 => exact ⟨n, rfl⟩
    rw [run_quote_pinned] at hrun
    obtain ⟨v, w₁', heval, hnew⟩ := run_bind_ok.mp hrun
    obtain ⟨ρ', w₁, hmoves, hbeside'⟩ := beside_eval hbeside hs hscope n x heval
    obtain ⟨rfl, rfl⟩ := eq_of_run_newList hnew
    refine ⟨ρ', _, hmoves.trans (.of_extends _ _ (.newList _ _)), hbeside'.newList _, w', v, w₁', rfl,
      ?_,
      .here (fun i hi => (hbeside'.copies.lists.lt hi).ne) Array.getElem?_push_size⟩
    exact heval
  | @inside es i e path hi hhead hpin ih =>
    obtain ⟨n, rfl⟩ : ∃ k, n = k + 1 := by
      match n with
      | 0 => cases hrun
      | n + 1 => exact ⟨n, rfl⟩
    obtain ⟨hlt, hget⟩ := List.getElem?_eq_some_iff.mp hi
    have hcodes : Code.ofExprs es =
        Code.ofExprs (es.take i) ++ .ofExpr e :: Code.ofExprs (es.drop (i + 1)) := by
      have hes : es = es.take i ++ e :: es.drop (i + 1) := by
        rw [← hget, List.getElem_cons_drop, List.take_append_drop]
      conv_lhs => rw [hes]
      simp only [Code.ofExprs_eq_map, List.map_append, List.map_cons]
    rw [run_quote_form hhead, hcodes, quoteAll_append] at hrun
    obtain ⟨us, w₃', hall, hnew⟩ := run_bind_ok.mp hrun
    obtain ⟨before, wa', hbefore, hall⟩ := run_bind_ok.mp hall
    obtain ⟨rest, wc', hrest, hall⟩ := run_bind_ok.mp hall
    obtain ⟨u₁, wb', hquote, hrest⟩ := run_bind_ok.mp hrest
    obtain ⟨after, wd', hafter, hrest⟩ := run_bind_ok.mp hrest
    obtain ⟨rfl, rfl⟩ : before ++ rest = us ∧ wc' = w₃' :=
      ⟨Except.ok.inj (Prod.mk.inj hall).1, (Prod.mk.inj hall).2⟩
    obtain ⟨rfl, rfl⟩ : u₁ :: after = rest ∧ wd' = wc' :=
      ⟨Except.ok.inj (Prod.mk.inj hrest).1, (Prod.mk.inj hrest).2⟩
    -- What comes before the place runs in both worlds, and so does what comes after it.
    obtain ⟨ρ₁, wa, hmoves₁, hbeside₁⟩ := beside_quoteAll hbeside hs hscope n _ hbefore
    have hs₁ := hs.within hmoves₁.within
    have hscope₁ := (hmoves₁.agree.scope hs).trans hscope
    obtain ⟨ρ₂, w₂, hmoves₂, hbeside₂, w₀, v, w₁, hturn, heval, hleads⟩ := ih hbeside₁ hs₁ hscope₁ hquote
    have hs₂ := hs₁.within hmoves₂.within
    have hscope₂ := (hmoves₂.agree.scope hs₁).trans hscope₁
    obtain ⟨ρ₃, w₃, hmoves₃, hbeside₃⟩ := beside_quoteAll hbeside₂ hs₂ hscope₂ n _ hafter
    obtain ⟨rfl, rfl⟩ := eq_of_run_newList hnew
    have hindex : (before ++ u₁ :: after)[i]? = some u₁ := by
      have hlength : before.length = i := by
        rw [length_of_quoteAll hbefore, Code.ofExprs_eq_map, List.length_map, List.length_take]
        exact Nat.min_eq_left hlt.le
      rw [← hlength]
      simp
    refine ⟨ρ₃, w₃, (hmoves₁.trans (hmoves₂.trans hmoves₃)).trans (.of_extends _ _ (.newList _ _)),
      hbeside₃.newList _, w₀, v, w₁, ?_, ?_, (hleads.moves hmoves₃).newList hbeside₃ hindex⟩
    · rw [quoteBefore, EventTally.run_bind, hbefore, hi]
      exact hturn
    · rw [List.length_cons, Nat.add_sub_add_right]
      exact heval

end

section

variable {w : World} {s : ScopeRef} {n : Nat}

theorem run_eval_call {b : Builtin} {name : String} (h : w.heap.lookup s name = some (.builtin b))
    {c : Code} {v : Value} {w₁ : World}
    (hcall : (callBuiltin (recursor (n + 1)) b [c] s).run w = (.ok v, w₁)) :
    ((recursor (n + 2)).eval (.form [.sym name, c]) s).run w = (.ok v, w₁) := by
  rw [run_eval_builtin h, withFrame_eq, run_tryCatch, hcall]

/-- The copy of a value and the value are the same as data. -/
structure StandsFor (h : Heap) (copy v : Value) : Prop where
  datum : h.datum copy = h.datum v
  equal : (h.datum v).Regular → h.equal copy v = true

theorem standsFor_of_shows {h : Heap} {copy v : Value} {d : Datum} (hcopy : h.Shows copy d)
    (hv : h.Shows v d) : StandsFor h copy v := by
  have hsame : h.datum copy = h.datum v := hcopy.datum.trans hv.datum.symm
  refine ⟨hsame, fun hregular => ?_⟩
  change (h.datum copy).equal (h.datum v) = true
  rw [hsame]
  exact hregular.equal_self

/-- **Pins stand for their values.** Wherever a pin of `x` is in a form that is quoted, `x` is evaluated
when its turn comes, and the form that is left in its place is a list which, evaluated after all, gives
what the value is as a datum then; so does `(eval '^x)` right away. The value must show a datum, which it
does unless it is part of itself, and no list in it, down through lists, may start with the symbol
`unquote`. The copy is equal to the value if that is equal to itself. -/
theorem pin_stands (x : Expr) (s : ScopeRef) :
    (∀ {e path w n u w'}, x.PinAt e path → w.heap.Closed → w.heap.HasScope s →
      ((recursor n).quote (.ofExpr e) s).run w = (.ok u, w') →
      ∃ w₀ v w₁ r, (quoteBefore s n e path).run w = (.ok (), w₀) ∧
        ((recursor (n - path.length - 2)).eval (.ofExpr x) s).run w₀ = (.ok v, w₁) ∧
        w'.heap.at? u path = some (.list r) ∧
        ∀ d m, w'.heap.Shows v d → d.Verbatim → w'.heap.lookup s "quote" = some (.builtin .quote) →
          d.nesting + 2 ≤ m →
          ∃ copy h, ((recursor m).eval (.value (.list r)) s).run w' = (.ok copy, { w' with heap := h }) ∧
            w'.heap.Extends h ∧ StandsFor h copy v) ∧
    ∀ {w n v w₁ d}, w.heap.lookup s "eval" = some (.builtin .eval) →
      w.heap.lookup s "quote" = some (.builtin .quote) →
      ((recursor n).eval (.ofExpr x) s).run w = (.ok v, w₁) →
      w₁.heap.lookup s "quote" = some (.builtin .quote) → w₁.heap.Shows v d → d.Verbatim →
      d.nesting ≤ n →
      ∃ copy h, ((recursor (n + 4)).eval (.ofExpr (.tagged "eval" [.quoted (.pinned x)])) s).run w =
          (.ok copy, { w₁ with heap := h }) ∧ w₁.heap.Extends h ∧ StandsFor h copy v := by
  constructor
  · intro e path w n u w' hpin hw hs hrun
    obtain ⟨ρ', w₂, -, -, w₀, v, w₁, hturn, heval, hleads⟩ := leads_quote hpin (.refl hw) hs rfl hrun
    obtain ⟨r, hat, helems⟩ := hleads.at?
    refine ⟨w₀, v, w₁, r, hturn, heval, hat, fun d m hshows hverbatim hquote hm => ?_⟩
    obtain ⟨copy, h, hcopy, hext, hsame⟩ := builds_eval_pinned helems hshows hverbatim hquote hm
    exact ⟨copy, h, hcopy, hext, standsFor_of_shows hsame (hshows.mono hext)⟩
  · intro w n v w₁ d heval hquote hrun hquote₁ hshows hverbatim hn
    have hnew : (w₁.heap.lists.push { slots := (pinned v).toArray, size := (pinned v).length })[
        w₁.heap.lists.size]? = some { slots := (pinned v).toArray, size := (pinned v).length } :=
      Array.getElem?_push_size
    have hext := Heap.Extends.newList w₁.heap (pinned v)
    set w₂ : World := { w₁ with heap := (w₁.heap.newList (pinned v)).2 } with hw₂
    set r := (w₁.heap.newList (pinned v)).1 with hr
    have hpin : ((recursor (n + 3)).eval (.ofExpr (.quoted (.pinned x))) s).run w =
        (.ok (.list r), w₂) := by
      have hcall : ((recursor (n + 2)).quote (.ofExpr (.pinned x)) s).run w = (.ok (.list r), w₂) := by
        rw [run_quote_pinned, run_bind, hrun]
        rfl
      simp only [Expr.quoted, Expr.tagged, Code.ofExpr, Code.ofExprs]
      exact run_eval_call hquote hcall
    have helems : w₂.heap.elems r = pinned v := Heap.elems_of_cell hnew
    have hlookup : w₂.heap.lookup s "quote" = w₁.heap.lookup s "quote" := by
      apply Heap.lookup_congr
      exact fun _ _ => rfl
    have hquote₂ := hlookup.trans hquote₁
    obtain ⟨copy, h, hcopy, hext', hsame⟩ := builds_eval_pinned (n := n + 3) helems (hshows.mono hext)
      hverbatim hquote₂ (by omega)
    refine ⟨copy, h, ?_, hext.trans hext', standsFor_of_shows hsame (hshows.mono (hext.trans hext'))⟩
    have hcall : (callBuiltin (recursor (n + 3)) .eval [.ofExpr (.quoted (.pinned x))] s).run w =
        (.ok copy, { w₁ with heap := h }) := by
      change ((recursor (n + 3)).eval (.ofExpr (.quoted (.pinned x))) s >>= fun v =>
        (recursor (n + 3)).eval (.value v) s).run w = _
      rw [run_bind, hpin]
      exact hcopy
    simp only [Expr.tagged, Code.ofExpr, Code.ofExprs]
    exact run_eval_call heval hcall

end

def pairExpr : Expr := .tagged "list" [.atom (.int 1), .atom (.int 2)]

def pairWorld : World := { World.initial with heap := (Heap.initial.newList [.int 1, .int 2]).2 }

def pinnedWorld : World :=
  { pairWorld with heap :=
      ((pairWorld.heap.newList (pinned (.list ⟨0⟩))).2.newList [.sym "a", .list ⟨1⟩]).2 }

theorem pin_stands_pair :
    (∃ r copy h, pinnedWorld.heap.at? (.list ⟨2⟩) [1] = some (.list r) ∧
      ((recursor 3).eval (.value (.list r)) Heap.builtinScope).run pinnedWorld =
        (.ok copy, { pinnedWorld with heap := h }) ∧ StandsFor h copy (.list ⟨0⟩)) ∧
    ∃ copy h, ((recursor 6).eval (.ofExpr (.tagged "eval" [.quoted (.pinned pairExpr)]))
        Heap.builtinScope).run World.initial = (.ok copy, { pairWorld with heap := h }) ∧
      StandsFor h copy (.list ⟨0⟩) := by
  have hpair : List.Forall₂ Heap.initial.Shows [.int 1, .int 2] [.int 1, .int 2] :=
    .cons (Heap.shows_atom _ _) (.cons (Heap.shows_atom _ _) .nil)
  have hshows : pairWorld.heap.Shows (.list ⟨0⟩) (.list [.int 1, .int 2]) :=
    Heap.shows_newList hpair
  have hverbatim : Datum.Verbatim (.list [.int 1, .int 2]) := by
    refine .list (by simp) fun d hd => .other fun ds h => ?_
    simp [h] at hd
  have hpin : pairExpr.PinAt (.form [.sym "a", .pinned pairExpr]) [1] :=
    .inside rfl (by simp) .here
  obtain ⟨hform, heval⟩ := pin_stands pairExpr Heap.builtinScope
  constructor
  · obtain ⟨w₀, v, w₁, r, hturn, hrun, hat, hcopy⟩ :=
      hform (n := 5) (u := .list ⟨2⟩) (w := .initial) hpin Heap.closed_initial Nat.one_pos
        (show _ = (Except.ok (Value.list ⟨2⟩), pinnedWorld) by cbv)
    have hbefore : (quoteBefore Heap.builtinScope 5 (.form [.sym "a", .pinned pairExpr]) [1]).run
        World.initial = (.ok (), World.initial) := by cbv
    obtain rfl := (Prod.mk.inj (hturn.symm.trans hbefore)).2
    have hvalue : ((recursor 2).eval (.ofExpr pairExpr) Heap.builtinScope).run World.initial =
        (.ok (.list ⟨0⟩), pairWorld) := by cbv
    obtain rfl := Except.ok.inj (Prod.mk.inj (hrun.symm.trans hvalue)).1
    have hext : pairWorld.heap.Extends pinnedWorld.heap :=
      (Heap.Extends.newList _ _).trans (.newList _ _)
    obtain ⟨copy, h, hcopy, -, hstands⟩ :=
      hcopy _ 3 (hshows.mono hext) hverbatim (by cbv) (by decide +kernel)
    exact ⟨r, copy, h, hat, hcopy, hstands⟩
  · obtain ⟨copy, h, hcopy, -, hstands⟩ := heval (n := 2) (w := .initial) (by cbv) (by cbv)
      (show _ = (Except.ok (Value.list ⟨0⟩), pairWorld) by cbv) (by cbv) hshows hverbatim
      (by decide +kernel)
    exact ⟨copy, h, hcopy, hstands⟩

end EvalM

end EventTally
