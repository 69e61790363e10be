import EventTally.Eval.Evaluate
import EventTally.Proofs.Heap.Finite
import EventTally.Proofs.Heap.Grown
import EventTally.Proofs.Pattern.Code
import EventTally.Proofs.Pattern.Solution

/-! # Matching values against patterns

Matching a value against a pattern binds in the scope what the solution of the pattern for the value
says, or fails with a mismatch if there is none (`EvalM.solves`). `Matches` says this of a computation;
its rules follow the constructions that the matcher is made of.
-/

namespace EventTally

open Pattern (Assignment)

/-- A name is bound to a value that shows what the name takes. -/
def Heap.ShowsBinding (h : Heap) (b : String × Value) (e : String × Datum) : Prop :=
  b.1 = e.1 ∧ h.Shows b.2 e.2

/-- From one world to the other the names of an assignment were bound in a scope, in some order, to
values that show it. Else there are new objects and nothing has changed. -/
structure Bound (s : ScopeRef) (σ : Assignment) (w w' : World) : Prop where
  grown : w.heap.Grown w'.heap
  bindings : ∃ bs σ', w'.heap.layers = (w.heap.bindAll s bs).layers ∧
    List.Forall₂ w'.heap.ShowsBinding bs σ' ∧ σ'.Perm σ
  journal : w'.journal = w.journal
  store : w'.store = w.store

theorem Heap.layers_bindAll_congr {h h' : Heap} (heq : h.layers = h'.layers) (s : ScopeRef)
    (bs : List (String × Value)) : (h.bindAll s bs).layers = (h'.bindAll s bs).layers := by
  induction bs generalizing h h' with
  | nil => exact heq
  | cons b bs ih =>
    refine ih ?_
    unfold Heap.bind
    dsimp only
    rw [heq]

namespace Bound

variable {s : ScopeRef} {w w' w'' : World} {σ σ' : Assignment}

theorem refl (s : ScopeRef) (w : World) : Bound s [] w w :=
  ⟨.refl _, ⟨[], [], rfl, .nil, .refl _⟩, rfl, rfl⟩

theorem perm (h : Bound s σ w w') (hperm : σ.Perm σ') : Bound s σ' w w' := by
  obtain ⟨bs, τ, hlayers, hbs, hτ⟩ := h.bindings
  exact ⟨h.grown, ⟨bs, τ, hlayers, hbs, hτ.trans hperm⟩, h.journal, h.store⟩

theorem trans (h : Bound s σ w w') (h' : Bound s σ' w' w'') : Bound s (σ ++ σ') w w'' := by
  obtain ⟨bs, τ, hlayers, hbs, hτ⟩ := h.bindings
  obtain ⟨bs', τ', hlayers', hbs', hτ'⟩ := h'.bindings
  refine ⟨h.grown.trans h'.grown, ⟨bs ++ bs', τ ++ τ', ?_, ?_, hτ.append hτ'⟩,
    h'.journal.trans h.journal, h'.store.trans h.store⟩
  · rw [hlayers', Heap.layers_bindAll_congr hlayers, Heap.bindAll, Heap.bindAll, Heap.bindAll,
      List.foldl_append]
  · exact List.rel_append (hbs.imp fun _ _ hb => ⟨hb.1, hb.2.grown h'.grown⟩) hbs'

theorem name {x : String} {v : Value} {d : Datum} (hv : w.heap.Shows v d) :
    Bound s [(x, d)] w { w with heap := w.heap.bind s x v } :=
  ⟨.bind .., ⟨[(x, v)], _, rfl, .cons ⟨rfl, hv.grown (.bind ..)⟩ .nil, .refl _⟩, rfl, rfl⟩

theorem extend {h : Heap} (hext : w.heap.Extends h) (hlayers : h.layers = w.heap.layers) :
    Bound s [] w { w with heap := h } :=
  ⟨hext.grown, ⟨[], _, hlayers, .nil, .refl _⟩, rfl, rfl⟩

end Bound

namespace EvalM

variable {α β : Type} {s : ScopeRef} {w : World} {Q : Heap → α → Prop} {R : Heap → β → Prop}
  {o : Option Assignment}

/-- A computation binds names in a scope as the assignment says and gives a result in `Q`, or it fails
with a mismatch if there is no assignment. -/
def Matches (s : ScopeRef) (w : World) (Q : Heap → α → Prop) (act : EvalM α) : Option Assignment → Prop
  | some σ => ∃ a w', act.run w = (.ok a, w') ∧ Bound s σ w w' ∧ Q w'.heap a
  | none => ∃ detail w',
      act.run w = (.error (.raised { reason := .patternMismatch "value" detail, trace := [] }), w')

abbrev Done : Heap → Unit → Prop := fun _ _ => True

namespace Matches

theorem pure {a : α} (h : Q w.heap a) : Matches s w Q (Pure.pure a) (some []) :=
  ⟨a, w, rfl, .refl s w, h⟩

theorem mismatch (detail : String) : Matches s w Q (EvalM.mismatch detail) none := ⟨detail, w, rfl⟩

theorem wrongKind (b : Bracket) (v : Value) : Matches s w Q (EvalM.wrongKind b v) none :=
  ⟨_, w, rfl⟩

theorem congr {act act' : EvalM α} (hrun : act.run w = act'.run w) (h : Matches s w Q act' o) :
    Matches s w Q act o := by
  cases o with
  | none =>
    obtain ⟨detail, w', h⟩ := h
    exact ⟨detail, w', hrun.trans h⟩
  | some σ =>
    obtain ⟨a, w', h, hrest⟩ := h
    exact ⟨a, w', hrun.trans h, hrest⟩

theorem perm {act : EvalM α} {o' : Option Assignment} (hperm : Option.Rel List.Perm o o')
    (h : Matches s w Q act o) : Matches s w Q act o' := by
  cases hperm with
  | none => exact h
  | some hperm =>
    obtain ⟨a, w', hrun, hbound, ha⟩ := h
    exact ⟨a, w', hrun, hbound.perm hperm, ha⟩

theorem run_bind {x : EvalM β} {f : β → EvalM α} {b : β} (hx : x.run w = (.ok b, w))
    (hf : Matches s w Q (f b) o) : Matches s w Q (x >>= f) o := by
  refine hf.congr ?_
  rw [EventTally.run_bind, hx]

theorem heap_bind {f : Heap → EvalM α} (hf : Matches s w Q (f w.heap) o) :
    Matches s w Q (heap >>= f) o :=
  run_bind rfl hf

theorem bind {x : EvalM β} {f : β → EvalM α} {p : Option Assignment} (hx : Matches s w R x o)
    (hf : ∀ σ b w', o = some σ → Bound s σ w w' → R w'.heap b → Matches s w' Q (f b) p) :
    Matches s w Q (x >>= f) (do return (← o) ++ (← p)) := by
  cases o with
  | none =>
    obtain ⟨detail, w', hrun⟩ := hx
    refine ⟨detail, w', ?_⟩
    rw [EventTally.run_bind, hrun]
  | some σ =>
    obtain ⟨b, w', hrun, hbound, hb⟩ := hx
    have hrest := hf σ b w' rfl hbound hb
    cases p with
    | none =>
      obtain ⟨detail, w'', hrun'⟩ := hrest
      refine ⟨detail, w'', ?_⟩
      rw [EventTally.run_bind, hrun]
      exact hrun'
    | some σ' =>
      obtain ⟨a, w'', hrun', hbound', ha⟩ := hrest
      refine ⟨a, w'', ?_, hbound.trans hbound', ha⟩
      rw [EventTally.run_bind, hrun]
      exact hrun'

theorem then_bind {x : EvalM β} {f : β → EvalM α} (hx : Matches s w R x (some []))
    (hf : ∀ b w', Bound s [] w w' → R w'.heap b → Matches s w' Q (f b) o) :
    Matches s w Q (x >>= f) o := by
  have h := hx.bind fun σ b w' hσ => by
    cases hσ
    exact hf b w'
  simpa using h

end Matches

theorem matches_newList {vs : List Value} {ds : List Datum} (hvs : List.Forall₂ w.heap.Shows vs ds) :
    Matches s w (fun h v => h.Shows v (.list ds)) (newList vs) (some []) :=
  ⟨_, _, rfl, .extend (.newList _ _) rfl, Heap.shows_newList hvs⟩

theorem matches_newDict {es : List (Value × Value)} {ds : List (Datum × Datum)}
    (hes : List.Forall₂ w.heap.ShowsEntry es ds) :
    Matches s w (fun h v => h.Shows v (.dict ds)) (newDict es) (some []) :=
  ⟨_, _, rfl, .extend (.newDict _ _) rfl, Heap.shows_newDict hes⟩

theorem matches_newSet {vs : List Value} {ds : List Datum} (hvs : List.Forall₂ w.heap.Shows vs ds) :
    Matches s w (fun h v => h.Shows v (.set ds)) (newSet vs) (some []) :=
  ⟨_, _, rfl, .extend (.newSet _ _) rfl, Heap.shows_newSet hvs⟩

variable {n : Nat}

theorem resolve_ofExpr (e : Expr) : resolve (.ofExpr e) = pure (.ofExpr e) := by
  cases e <;> (rw [Code.ofExpr]; rfl)

theorem run_eval_scalar (a : Scalar) :
    ((recursor (n + 1)).eval (.value (.atom a.atom)) s).run w = (.ok (.atom a.atom), w) := by
  obtain ⟨a, ha⟩ := a
  cases a with
  | sym x => exact absurd rfl (ha x)
  | _ => rfl

theorem run_bindStep_plain (r : Recursor) (b : Bracket) (elems : List Code) (place : Place) :
    (bindStep r (.form (.sym b.tag :: elems)) place s).run w =
      (bindPlain r s b elems (w.heap.read place)).run w := by
  cases b <;> rfl

theorem run_bindStep_spread (r : Recursor) (b : Bracket) (elems : List Code) (place : Place) :
    (bindStep r (.form (.sym b.intoTag :: elems)) place s).run w =
      (bindSpread r s b elems (w.heap.read place)).run w := by
  cases b <;> rfl

theorem run_taggedForm_sym (tag x : String) : (taggedForm? tag (.sym x)).run w = (.ok none, w) := rfl

theorem run_taggedForm_form (tag : String) (elems : List Code) :
    (taggedForm? tag (.form (.sym tag :: elems))).run w = (.ok (some elems), w) := by
  change (_, w) = _
  simp

theorem run_heap_bind (f : Heap → EvalM α) : (heap >>= f).run w = (f w.heap).run w := rfl

/-- A key and a pattern as they are found in a dict pattern. -/
def entryOf (e : Scalar × Pattern) : Value × Code := (.atom e.1.atom, e.2.code)

/-- The entries of a dict pattern in the order in which they are matched. -/
def arranged (h : Heap) (es : List (Scalar × Pattern)) : List (Scalar × Pattern) :=
  Keyed.ranked (fun e => h.place (.atom e.1.atom)) es

/-- The members of a set pattern in the order in which they are matched. -/
def arrangedAtoms (h : Heap) (as : List Atom) : List Atom := Keyed.ranked (fun a => h.place (.atom a)) as

theorem perm_arranged (h : Heap) (es : List (Scalar × Pattern)) : (arranged h es).Perm es :=
  Keyed.perm_ranked es

theorem perm_arrangedAtoms (h : Heap) (as : List Atom) : (arrangedAtoms h as).Perm as :=
  Keyed.perm_ranked as

theorem sortEntries_entries (h : Heap) (es : List (Scalar × Pattern)) :
    h.sortEntries (es.map entryOf) = (arranged h es).map entryOf :=
  Keyed.ranked_map (fun _ => rfl) es

theorem sortMembers_atoms (h : Heap) (as : List Atom) :
    h.sortMembers (as.map .atom) = (arrangedAtoms h as).map .atom :=
  Keyed.ranked_map (fun _ => rfl) as

theorem run_collectKeys (acc : List (Scalar × Pattern)) {es : List (Scalar × Pattern)}
    (h : (acc ++ es).Pairwise fun e e' => e.1.atom.equal e'.1.atom = false) :
    (dictPattern.collect (recursor (n + 1)) s (acc.map entryOf) (Pattern.entryCodes es)).run w =
      (.ok (w.heap.sortEntries ((acc ++ es).map entryOf)), w) := by
  induction es generalizing acc with
  | nil =>
    rw [List.append_nil]
    rfl
  | cons e es ih =>
    obtain ⟨k, p⟩ := e
    have hinsert : w.heap.insertEntry (.atom k.atom) p.code (acc.map entryOf) =
        .ok ((acc ++ [(k, p)]).map entryOf) := by
      have hnew : ∀ e ∈ acc.map entryOf, w.heap.sameKey (.atom k.atom) e.1 = false := by
        intro e he
        obtain ⟨e, hmem, rfl⟩ := List.mem_map.mp he
        have hne := (List.pairwise_append.mp h).2.2 e hmem (k, p) List.mem_cons_self
        rw [Atom.equal_comm] at hne
        change (k.datum).sameKey e.1.datum = false
        rw [Datum.sameKey, Scalar.datum, Scalar.datum, Datum.equal, hne, Bool.false_and]
      rw [Heap.insertEntry, if_pos (by rfl), Keyed.insert_eq_append _ hnew, List.map_append]
      rfl
    have hstep := ih (acc ++ [(k, p)]) (by simpa using h)
    rw [List.append_assoc, List.singleton_append] at hstep
    rw [Pattern.entryCodes_cons, dictPattern.collect, run_bind, run_eval_scalar]
    dsimp only
    rw [Pattern.code, resolve_ofExpr, ← Pattern.code, pure_bind,
      run_heap_bind, hinsert]
    exact hstep

theorem length_entryCodes (es : List (Scalar × Pattern)) :
    (Pattern.entryCodes es).length = 2 * es.length := by
  induction es with
  | nil => rfl
  | cons e es ih =>
    rw [Pattern.entryCodes_cons, List.length_cons, List.length_cons, List.length_cons, ih]
    omega

theorem run_dictPattern {es : List (Scalar × Pattern)}
    (h : es.Pairwise fun e e' => e.1.atom.equal e'.1.atom = false) :
    (dictPattern (recursor (n + 1)) s (Pattern.entryCodes es)).run w =
      (.ok ((arranged w.heap es).map entryOf), w) := by
  rw [dictPattern, if_neg]
  · rw [← sortEntries_entries]
    exact run_collectKeys [] h
  · rw [length_entryCodes]
    omega

theorem map_insertElem (h : Heap) (a : Atom) (acc : List Atom) :
    Keyed.insertElem (h.sameKey (.atom a)) (.atom a) (acc.map Value.atom) =
      (Keyed.insertElem (fun b => (Datum.atom a).sameKey (.atom b)) a acc).map Value.atom := by
  induction acc with
  | nil => rfl
  | cons b acc ih =>
    rw [List.map_cons, Keyed.insertElem, Keyed.insertElem, ih]
    change (if (Datum.atom a).sameKey (.atom b) = true then _ else _) = _
    split <;> rfl

theorem run_setPattern (as : List Scalar) :
    (setPattern (recursor (n + 1)) s (as.map fun a => .value (.atom a.atom))).run w =
      (.ok ((arrangedAtoms w.heap (Scalar.distinct as)).map .atom), w) := by
  have hfold : ∀ acc : List Atom,
      (setPattern.collect (recursor (n + 1)) s (acc.map .atom)
        (as.map fun a => .value (.atom a.atom))).run w =
      (.ok (w.heap.sortMembers ((as.foldl (fun acc a =>
        Keyed.insertElem (fun b => a.datum.sameKey (.atom b)) a.atom acc) acc).map .atom)), w) := by
    induction as with
    | nil => exact fun acc => rfl
    | cons a as ih =>
      intro acc
      have hinsert : w.heap.insertMember (.atom a.atom) (acc.map .atom) =
          .ok ((Keyed.insertElem (fun b => a.datum.sameKey (.atom b)) a.atom acc).map .atom) := by
        rw [Heap.insertMember, if_pos (by rfl), map_insertElem]
        rfl
      rw [List.map_cons, setPattern.collect, run_bind, run_eval_scalar]
      dsimp only
      rw [run_heap_bind, hinsert]
      exact ih _
  rw [← sortMembers_atoms]
  exact hfold []

end EvalM

/-- Matching a pattern in a scope does what its solution says. -/
def Recursor.Solves (r : Recursor) (s : ScopeRef) (P : Pattern) : Prop :=
  ∀ w place d, w.heap.Reads place d → EvalM.Matches s w EvalM.Done (r.bind P.code place s) (P.solve? d)

namespace EvalM

variable {s : ScopeRef} {w : World}

variable {r : Recursor} {b : Bracket} {ps : List Pattern} {places : List Place} {ds : List Datum}
  {x : String}

theorem matches_bindEach (ih : ∀ p ∈ ps, r.Solves s p) (hplaces : List.Forall₂ w.heap.Reads places ds)
    (hlength : ps.length = ds.length) :
    Matches s w Done (bindEach r s (ps.map Pattern.code) places) (Pattern.solveAll ps ds) := by
  induction ps generalizing w places ds with
  | nil =>
    rw [Pattern.solveAll]
    cases hplaces <;> exact .pure trivial
  | cons p ps ihps =>
    cases hplaces with
    | nil => cases hlength
    | @cons place d places ds hplace hplaces =>
      obtain ⟨ihp, ihrest⟩ := List.forall_mem_cons.mp ih
      rw [Pattern.solveAll]
      refine (ihp w place d hplace).bind fun σ _ w' _ hbound _ => ?_
      refine ihps ihrest (hplaces.imp fun _ _ hp => hp.grown hbound.grown) ?_
      exact Nat.succ.inj hlength

theorem matches_bindElems (ih : ∀ p ∈ ps, r.Solves s p)
    (hplaces : List.Forall₂ w.heap.Reads places ds) :
    Matches s w Done (bindElems r s (ps.map Pattern.code) places)
      (if ps.length = ds.length then Pattern.solveAll ps ds else none) := by
  unfold bindElems
  rw [List.length_map, hplaces.length_eq]
  split
  · next hlength => exact matches_bindEach ih hplaces hlength
  · exact .mismatch _

/-- What is left of a sequence becomes a sequence of the same kind. -/
def KeepsRest (s : ScopeRef) (b : Bracket) (collection : List Datum → Datum) : Prop :=
  ∀ w places ds, List.Forall₂ w.heap.Reads places ds →
    Matches s w (fun h v => h.Shows v (collection ds)) (restOf b places) (some [])

theorem shows_read (hplaces : List.Forall₂ w.heap.Reads places ds) :
    List.Forall₂ w.heap.Shows (places.map w.heap.read) ds := by
  rw [List.forall₂_map_left_iff]
  exact hplaces.imp fun _ _ hp => hp.shows

theorem keepsRest_list (s : ScopeRef) : KeepsRest s .list .list := by
  intro w places ds hplaces
  exact .heap_bind (matches_newList (shows_read hplaces))

theorem keepsRest_tuple (s : ScopeRef) : KeepsRest s .tuple .tuple := by
  intro w places ds hplaces
  exact .heap_bind (.pure (Heap.shows_tuple (shows_read hplaces)))

theorem matches_bindRest {v : Value} {d : Datum} {act : EvalM Unit} (hsym : r.Solves s (.sym x))
    (hv : w.heap.Shows v d) (hact : ∀ w, act.run w = (.ok (), w)) :
    Matches s w Done (do r.bind (.sym x) (.value v) s; act) (some (Pattern.take x d)) := by
  have hbind := hsym w (.value v) d hv.reads
  rw [Pattern.solve?, Pattern.code_sym] at hbind
  have h := hbind.bind (Q := Done) (f := fun _ => act) (p := some []) fun σ _ w' _ _ _ =>
    ⟨(), w', hact w', .refl s w', trivial⟩
  simpa using h

theorem matches_spreadSeq_rest {collection : List Datum → Datum} (hrest : KeepsRest s b collection)
    (hsym : r.Solves s (.sym x)) (hplaces : List.Forall₂ w.heap.Reads places ds) :
    Matches s w Done (bindSpreadSeq r s b [.sym x] places)
      (some (Pattern.take x (collection ds))) := by
  unfold bindSpreadSeq
  refine .run_bind (run_taggedForm_sym b.tag x) ((hrest w places ds hplaces).then_bind ?_)
  exact fun v w' _ hv => matches_bindRest hsym hv fun _ => rfl

theorem map_chunk (b : Bracket) {es : List Expr} (h : es ≠ []) (x : String) :
    (b.chunk es ++ [Expr.sym x]).map Code.ofExpr =
      [.form (.sym b.tag :: es.map Code.ofExpr), .sym x] := by
  have hempty : es.isEmpty = false := by simpa using h
  rw [Bracket.chunk, hempty]
  simp [Code.ofExpr_tagged, Code.ofExpr]

theorem bind_some_append (o : Option Assignment) (σ : Assignment) :
    (do return (← o) ++ (← some σ)) = o.map (· ++ σ) := by
  cases o <;> rfl

theorem matches_spreadSeq {collection : List Datum → Datum} (hrest : KeepsRest s b collection)
    (ih : ∀ p ∈ ps, r.Solves s p) (hsym : r.Solves s (.sym x))
    (hplaces : List.Forall₂ w.heap.Reads places ds) :
    Matches s w Done
      (bindSpreadSeq r s b ((b.chunk (ps.map Pattern.expr) ++ [Expr.sym x]).map Code.ofExpr) places)
      ((Pattern.solveAll ps ds).map (· ++ Pattern.take x (collection (ds.drop ps.length)))) := by
  by_cases hps : ps = []
  · subst hps
    rw [Pattern.solveAll]
    exact matches_spreadSeq_rest hrest hsym hplaces
  · rw [map_chunk b (by simpa using hps)]
    unfold bindSpreadSeq
    refine .run_bind (run_taggedForm_form _ _) ?_
    dsimp only
    rw [List.map_map, List.length_map, hplaces.length_eq]
    split
    · next hshort =>
      rw [Pattern.solveAll_eq_none hshort]
      exact .mismatch _
    · next hlong =>
      have hfirst := matches_bindElems (w := w) ih (List.forall₂_take ps.length hplaces)
      rw [List.length_take, Nat.min_eq_left (Nat.le_of_not_lt hlong), if_pos rfl,
        Pattern.solveAll_take] at hfirst
      rw [← bind_some_append]
      refine hfirst.bind fun σ _ w' _ hbound _ => ?_
      exact matches_spreadSeq_rest hrest hsym
        (List.forall₂_drop ps.length (hplaces.imp fun _ _ hp => hp.grown hbound.grown))

variable {n : Nat} {es : List (Scalar × Pattern)} {entries : List (Value × Value)}
  {es' : List (Datum × Datum)}

theorem forall₂_eraseP {α β : Type} {R : α → β → Prop} {p : α → Bool} {q : β → Bool} {xs : List α}
    {ys : List β} (h : List.Forall₂ R xs ys) (htest : ∀ x y, R x y → p x = q y) :
    List.Forall₂ R (xs.eraseP p) (ys.eraseP q) := by
  induction h with
  | nil => exact .nil
  | @cons x y xs ys hxy hrest ih =>
    rw [List.eraseP_cons, List.eraseP_cons, htest x y hxy]
    cases q y
    · exact .cons hxy ih
    · exact hrest

theorem bindEntries_cons (r : Recursor) (s : ScopeRef) (k : Value) (c : Code)
    (patterns : List (Value × Code)) (entries : List (Value × Value)) :
    bindEntries r s ((k, c) :: patterns) entries = heap >>= fun h => match h.findEntry entries k with
      | none => datum k >>= fun d => mismatch ("lacks key " ++ d.plain)
      | some v => r.bind c (.value v) s >>= fun _ =>
        bindEntries r s patterns (Keyed.erase (h.sameKey k) entries) := rfl

/-- The values of the keys are matched. The entries that are found are those of `full`, of which some may
have been removed under other keys. -/
theorem matches_bindEntries {full : List (Datum × Datum)} (ih : ∀ e ∈ es, r.Solves s e.2)
    (hkeys : es.Pairwise fun e e' => e.1.atom.equal e'.1.atom = false)
    (hentries : List.Forall₂ w.heap.ShowsEntry entries es')
    (hfull : ∀ e ∈ es, Keyed.find? e.1.datum.sameKey es' = Keyed.find? e.1.datum.sameKey full) :
    Matches s w (fun h left => List.Forall₂ h.ShowsEntry left
        (Datum.without Prod.fst (Pattern.keys es) es'))
      (bindEntries r s (es.map entryOf) entries) (Pattern.solveEntries es full) := by
  induction hkeys generalizing w entries es' with
  | nil =>
    rw [Pattern.solveEntries]
    exact .pure hentries
  | @cons e es hhead _ ihes =>
    obtain ⟨k, p⟩ := e
    obtain ⟨ihp, ihrest⟩ := List.forall_mem_cons.mp ih
    obtain ⟨hk, hfull⟩ := List.forall_mem_cons.mp hfull
    have hkey : w.heap.Shows (.atom k.atom) k.datum := w.heap.shows_atom k.atom
    have hfind := Heap.findEntry_shows hkey hentries
    rw [hk] at hfind
    rw [Pattern.solveEntries, List.map_cons, entryOf, bindEntries_cons]
    refine .heap_bind ?_
    dsimp only
    cases hd : Keyed.find? k.datum.sameKey full with
    | none =>
      rw [hd] at hfind
      cases hv : w.heap.findEntry entries (.atom k.atom) with
      | some v =>
        rw [hv] at hfind
        cases hfind
      | none => exact .run_bind (run_datum rfl) (.mismatch _)
    | some d =>
      rw [hd] at hfind
      cases hv : w.heap.findEntry entries (.atom k.atom) with
      | none =>
        rw [hv] at hfind
        cases hfind
      | some v =>
        rw [hv] at hfind
        cases hfind with
        | some hshows =>
          refine (ihp w (.value v) d hshows.reads).bind fun σ _ w' _ hbound _ => ?_
          have herase : List.Forall₂ w.heap.ShowsEntry
              (Keyed.erase (w.heap.sameKey (.atom k.atom)) entries)
              (es'.eraseP fun e => k.datum.sameKey e.1) :=
            forall₂_eraseP hentries fun e e' he => Heap.sameKey_shows hkey he.1
          refine ihes ihrest (herase.imp fun _ _ he => he.grown hbound.grown) fun e he => ?_
          rw [← hfull e he, Keyed.find?, Keyed.find?, Datum.find?_eraseP es']
          refine fun e' he' => Datum.not_sameKey_of_sameKey ?_ he'
          rw [Datum.sameKey, Scalar.datum, Datum.equal, hhead e he, Bool.false_and]

theorem matches_arrangedEntries (ih : ∀ e ∈ es, r.Solves s e.2)
    (hkeys : es.Pairwise fun e e' => e.1.atom.equal e'.1.atom = false)
    (hentries : List.Forall₂ w.heap.ShowsEntry entries es') :
    Matches s w (fun h left => List.Forall₂ h.ShowsEntry left
        (Datum.without Prod.fst (Pattern.keys es) es'))
      (bindEntries r s ((arranged w.heap es).map entryOf) entries) (Pattern.solveEntries es es') := by
  have hperm := perm_arranged w.heap es
  have hkept : (Pattern.keys (arranged w.heap es)).Perm (Pattern.keys es) := hperm.map _
  have hapart := (hperm.symm.pairwise_iff fun {e e'} h => by rwa [Atom.equal_comm]).mp hkeys
  have hmatch := matches_bindEntries (fun e he => ih e (hperm.mem_iff.mp he)) hapart hentries
    fun _ _ => rfl
  rw [Datum.without_perm Prod.fst hkept (Pattern.pairwise_keys hapart)] at hmatch
  exact hmatch.perm (Pattern.solveEntries_perm hperm es')

theorem matches_spreadDict_rest (hsym : r.Solves s (.sym x))
    (hentries : List.Forall₂ w.heap.ShowsEntry entries es') :
    Matches s w Done (bindSpreadDict r s [.sym x] entries) (some (Pattern.take x (.dict es'))) := by
  unfold bindSpreadDict
  refine .run_bind (run_taggedForm_sym "dict" x) ((matches_newDict hentries).then_bind ?_)
  exact fun v w' _ hv => matches_bindRest hsym hv fun _ => rfl

theorem matches_spreadDict (ih : ∀ e ∈ es, (recursor (n + 1)).Solves s e.2)
    (hsym : (recursor (n + 1)).Solves s (.sym x))
    (hkeys : es.Pairwise fun e e' => e.1.atom.equal e'.1.atom = false)
    (hentries : List.Forall₂ w.heap.ShowsEntry entries es') :
    Matches s w Done
      (bindSpreadDict (recursor (n + 1)) s
        ((Bracket.dict.chunk (Pattern.entryExprs es) ++ [Expr.sym x]).map Code.ofExpr) entries)
      ((Pattern.solveEntries es es').map
        (· ++ Pattern.take x (.dict (Datum.without Prod.fst (Pattern.keys es) es')))) := by
  by_cases hes : es = []
  · subst hes
    rw [Pattern.solveEntries, Pattern.entryExprs]
    exact matches_spreadDict_rest hsym hentries
  · have hexprs : Pattern.entryExprs es ≠ [] := by
      obtain ⟨e, es, rfl⟩ := List.exists_cons_of_ne_nil hes
      rw [Pattern.entryExprs]
      exact List.cons_ne_nil _ _
    rw [map_chunk .dict hexprs]
    unfold bindSpreadDict
    refine .run_bind (run_taggedForm_form _ _) (.run_bind (run_dictPattern hkeys) ?_)
    rw [← bind_some_append]
    refine (matches_arrangedEntries ih hkeys hentries).bind fun σ left w' _ _ hleft => ?_
    exact matches_spreadDict_rest hsym hleft

variable {ks : List Atom} {members : List Value}

theorem any_eq_of_forall₂ {α β : Type} {R : α → β → Prop} {p : α → Bool} {q : β → Bool} {xs : List α}
    {ys : List β} (h : List.Forall₂ R xs ys) (htest : ∀ x y, R x y → p x = q y) : xs.any p = ys.any q := by
  induction h with
  | nil => rfl
  | cons hxy _ ih => rw [List.any_cons, List.any_cons, htest _ _ hxy, ih]

theorem matches_removeMembers
    (hks : ks.Pairwise fun k l => (Datum.atom k).sameKey (.atom l) = false)
    (hmembers : List.Forall₂ w.heap.Shows members ds) :
    Matches s w (fun h left => List.Forall₂ h.Shows left (Datum.without id ks ds))
      (removeMembers (ks.map .atom) members)
      (if ks.all fun k => ds.any (Datum.atom k).sameKey then some [] else none) := by
  induction hks generalizing members ds with
  | nil => exact .pure hmembers
  | @cons k ks hhead _ ih =>
    have htest : ∀ v d, w.heap.Shows v d → w.heap.sameKey (.atom k) v = (Datum.atom k).sameKey d :=
      fun v d hv => Heap.sameKey_shows (w.heap.shows_atom k) hv
    rw [List.map_cons, removeMembers]
    refine .heap_bind ?_
    rw [any_eq_of_forall₂ hmembers htest, List.all_cons]
    cases hany : ds.any (Datum.atom k).sameKey with
    | false => exact .run_bind (run_datum rfl) (.mismatch _)
    | true =>
      have hrest := ih (forall₂_eraseP hmembers htest)
      have hall : (ks.all fun l => (ds.eraseP (Datum.atom k).sameKey).any (Datum.atom l).sameKey) =
          ks.all fun l => ds.any (Datum.atom l).sameKey := by
        rw [Bool.eq_iff_iff, List.all_eq_true, List.all_eq_true]
        refine forall₂_congr fun l hl => ?_
        have hfind := Datum.find?_eraseP ds fun d =>
          Datum.not_sameKey_of_sameKey (y := d) (hhead l hl)
        rw [List.any_eq_true, List.any_eq_true, ← List.find?_isSome, hfind, List.find?_isSome]
      rw [hall] at hrest
      exact hrest

theorem matches_arrangedMembers (as : List Scalar) (hmembers : List.Forall₂ w.heap.Shows members ds) :
    Matches s w (fun h left => List.Forall₂ h.Shows left (Datum.without id (Scalar.distinct as) ds))
      (removeMembers ((arrangedAtoms w.heap (Scalar.distinct as)).map .atom) members)
      (if (Scalar.distinct as).all fun a => ds.any (Datum.atom a).sameKey then some [] else none) := by
  have hperm := perm_arrangedAtoms w.heap (Scalar.distinct as)
  have hapart := (hperm.symm.pairwise_iff fun {a b} h => by rwa [Datum.sameKey_atom_comm]).mp
    (Scalar.pairwise_distinct as)
  have hmatch := matches_removeMembers (s := s) hapart hmembers
  rwa [Datum.without_perm id hperm hapart, hperm.all_eq] at hmatch

theorem matches_spreadSet_rest (hsym : r.Solves s (.sym x))
    (hmembers : List.Forall₂ w.heap.Shows members ds) :
    Matches s w Done (bindSpreadSet r s [.sym x] members) (some (Pattern.take x (.set ds))) := by
  unfold bindSpreadSet
  refine .run_bind (run_taggedForm_sym "set" x) ((matches_newSet hmembers).then_bind ?_)
  exact fun v w' _ hv => matches_bindRest hsym hv fun _ => rfl

theorem map_ofExpr_scalars (as : List Scalar) :
    (as.map Scalar.expr).map Code.ofExpr = as.map fun a => .value (.atom a.atom) := by
  rw [List.map_map]
  refine List.map_congr_left fun a _ => ?_
  rw [Function.comp_apply, Scalar.expr, Code.ofExpr]

theorem matches_spreadSet (as : List Scalar) (hsym : (recursor (n + 1)).Solves s (.sym x))
    (hmembers : List.Forall₂ w.heap.Shows members ds) :
    Matches s w Done
      (bindSpreadSet (recursor (n + 1)) s
        ((Bracket.set.chunk (as.map Scalar.expr) ++ [Expr.sym x]).map Code.ofExpr) members)
      (if (Scalar.distinct as).all fun a => ds.any (Datum.atom a).sameKey then
        some (Pattern.take x (.set (Datum.without id (Scalar.distinct as) ds)))
      else none) := by
  by_cases has : as = []
  · subst has
    exact matches_spreadSet_rest hsym hmembers
  · rw [map_chunk .set (by simpa using has), map_ofExpr_scalars]
    unfold bindSpreadSet
    refine .run_bind (run_taggedForm_form _ _) (.run_bind (run_setPattern as) ?_)
    have hremove := matches_arrangedMembers (s := s) as hmembers
    have h := hremove.bind (Q := Done) (f := fun left => bindSpreadSet (recursor (n + 1)) s [.sym x] left)
      (p := some (Pattern.take x (.set (Datum.without id (Scalar.distinct as) ds))))
      fun σ left w' _ _ hleft => matches_spreadSet_rest hsym hleft
    rw [bind_some_append, apply_ite (Option.map _)] at h
    exact h

end EvalM

/-- The kind of a value is that of the datum it shows. -/
inductive Heap.SameKind : Value → Datum → Prop
  | atom (a : Atom) : SameKind (.atom a) (.atom a)
  | tuple (vs : List Value) (ds : List Datum) : SameKind (.tuple vs) (.tuple ds)
  | list (r : ListRef) (ds : List Datum) : SameKind (.list r) (.list ds)
  | dict (r : DictRef) (es : List (Datum × Datum)) : SameKind (.dict r) (.dict es)
  | set (r : SetRef) (ds : List Datum) : SameKind (.set r) (.set ds)
  | builtin (b : Builtin) (name : String) : SameKind (.builtin b) (.builtin name)
  | closure (r : ClosureRef) (id : Nat) (name : String) (pattern body : Datum) :
      SameKind (.closure r) (.closure id name pattern body)

theorem Heap.Shows.sameKind {h : Heap} {v : Value} {d : Datum} (hv : h.Shows v d) : SameKind v d := by
  obtain rfl := hv.view
  cases v <;> constructor

namespace EvalM

variable {s : ScopeRef} {w : World} {n : Nat}

theorem run_read_bind (place : Place) (f : Value → EvalM Unit) :
    (read place >>= f).run w = (f (w.heap.read place)).run w := by
  rw [run_bind]
  rfl

theorem run_bindStep_sym (r : Recursor) (x : String) (place : Place) :
    (bindStep r (.sym x) place s).run w =
      (if x = "_" then pure () else bindName s x (w.heap.read place) : EvalM Unit).run w := by
  simp only [bindStep, run_read_bind, resolve, pure_bind]

theorem run_bindStep_scalar (r : Recursor) (a : Scalar) (place : Place) :
    (bindStep r (.value (.atom a.atom)) place s).run w =
      (bindLiteral r s (.value (.atom a.atom)) (w.heap.read place)).run w := by
  obtain ⟨a, ha⟩ := a
  cases a with
  | sym x => exact absurd rfl (ha x)
  | _ => simp only [bindStep, run_read_bind, resolve, pure_bind, formOf?]

theorem solves_sym (n : Nat) (s : ScopeRef) (x : String) : (recursor (n + 1)).Solves s (.sym x) := by
  intro w place d hplace
  rw [Pattern.code_sym, Pattern.solve?]
  refine .congr (run_bindStep_sym (recursor n) x place) ?_
  unfold Pattern.take
  split
  · exact .pure trivial
  · exact ⟨(), _, rfl, .name hplace.shows, trivial⟩

theorem solves_literal (n : Nat) (s : ScopeRef) (a : Scalar) :
    (recursor (n + 2)).Solves s (.literal a) := by
  intro w place d hplace
  rw [Pattern.code, Pattern.expr, Scalar.expr, Code.ofExpr]
  refine .congr (run_bindStep_scalar (recursor (n + 1)) a place) ?_
  refine .run_bind (run_eval_scalar a) (.heap_bind ?_)
  have hequal : w.heap.equal? (w.heap.read place) (.atom a.atom) = some (d.equal a.datum) := by
    rw [Heap.equal?_of_isFinite hplace.shows.isFinite rfl, Heap.equal, hplace.shows.datum]
    rfl
  rw [Pattern.solve?, hequal]
  refine .run_bind (b := d.equal a.datum) rfl ?_
  split
  · exact .pure trivial
  · refine .run_bind (run_datum rfl) (.run_bind (run_datum hplace.shows.isFinite) ?_)
    exact .mismatch _

theorem solves_of_literal (b : Bracket) (P : Option String → Pattern) (es : List Expr)
    (hexpr : ∀ rest, (P rest).expr = b.desugar (Pattern.items es rest))
    (hplain : ∀ w v d, w.heap.Shows v d →
      Matches s w Done (bindPlain (recursor n) s b (es.map Code.ofExpr) v) ((P none).solve? d))
    (hspread : ∀ x w v d, w.heap.Shows v d →
      Matches s w Done (bindSpread (recursor n) s b ((b.chunk es ++ [Expr.sym x]).map Code.ofExpr) v)
        ((P (some x)).solve? d)) (rest : Option String) : (recursor (n + 1)).Solves s (P rest) := by
  intro w place d hplace
  cases rest with
  | none =>
    rw [Pattern.code, hexpr, Pattern.desugar_items_none, Code.ofExpr_tagged]
    exact .congr (run_bindStep_plain (recursor n) b _ place) (hplain w _ d hplace.shows)
  | some x =>
    rw [Pattern.code, hexpr, Pattern.desugar_items_some, Code.ofExpr_tagged]
    exact .congr (run_bindStep_spread (recursor n) b _ place) (hspread x w _ d hplace.shows)

variable {ps : List Pattern} {es : List (Scalar × Pattern)}

theorem solves_list (ih : ∀ p ∈ ps, (recursor (n + 1)).Solves s p) (rest : Option String) :
    (recursor (n + 2)).Solves s (.list ps rest) := by
  refine solves_of_literal .list (.list ps) (ps.map Pattern.expr) ?_ ?_ ?_ rest
  · intro rest
    rw [Pattern.expr, Pattern.exprs_eq_map]
  · intro w v d hv
    cases hv.sameKind with
    | list ref ds =>
      have h := matches_bindElems ih hv.places
      rw [List.map_map, Pattern.solve?]
      simp only [Pattern.covers_none, Pattern.takeRest_none, List.append_nil, Option.map_id']
      exact .heap_bind h
    | _ => exact .wrongKind _ _
  · intro x w v d hv
    cases hv.sameKind with
    | list ref ds =>
      have h := matches_spreadSeq (keepsRest_list s) ih (solves_sym n s x) hv.places
      rw [Pattern.solve?, if_pos (Pattern.covers_some _ _ _), Pattern.takeRest_some]
      exact .heap_bind h
    | _ => exact .wrongKind _ _

theorem solves_tuple (ih : ∀ p ∈ ps, (recursor (n + 1)).Solves s p) (rest : Option String) :
    (recursor (n + 2)).Solves s (.tuple ps rest) := by
  refine solves_of_literal .tuple (.tuple ps) (ps.map Pattern.expr) ?_ ?_ ?_ rest
  · intro rest
    rw [Pattern.expr, Pattern.exprs_eq_map]
  · intro w v d hv
    cases hv.sameKind with
    | tuple vs ds =>
      have h := matches_bindElems ih (Heap.reads_values hv.tuple)
      rw [List.map_map, Pattern.solve?]
      simp only [Pattern.covers_none, Pattern.takeRest_none, List.append_nil, Option.map_id']
      exact h
    | _ => exact .wrongKind _ _
  · intro x w v d hv
    cases hv.sameKind with
    | tuple vs ds =>
      have h := matches_spreadSeq (keepsRest_tuple s) ih (solves_sym n s x) (Heap.reads_values hv.tuple)
      rw [Pattern.solve?, if_pos (Pattern.covers_some _ _ _), Pattern.takeRest_some]
      exact h
    | _ => exact .wrongKind _ _

theorem matches_ignore {α : Type} {Q : Heap → α → Prop} {act : EvalM α} {o : Option Assignment}
    (h : Matches s w Q act o) : Matches s w Done (do let _ ← act; pure ()) o := by
  have hdone := h.bind (Q := Done) (f := fun _ => pure ()) (p := some []) fun _ _ _ _ _ _ =>
    .pure trivial
  simpa using hdone

theorem solves_dict (ih : ∀ e ∈ es, (recursor (n + 1)).Solves s e.2)
    (hkeys : es.Pairwise fun e e' => e.1.atom.equal e'.1.atom = false) (rest : Option String) :
    (recursor (n + 2)).Solves s (.dict es rest) := by
  refine solves_of_literal .dict (.dict es) (Pattern.entryExprs es) ?_ ?_ ?_ rest
  · intro rest
    rw [Pattern.expr]
  · intro w v d hv
    cases hv.sameKind with
    | dict ref entries =>
      have h := matches_arrangedEntries ih hkeys hv.entries
      rw [Pattern.solve?]
      simp only [Pattern.covers_none, Pattern.takeRest_none, List.append_nil, Option.map_id']
      refine .run_bind (run_dictPattern hkeys) (.heap_bind ?_)
      dsimp only
      rw [List.length_map, (perm_arranged w.heap es).length_eq, hv.entries.length_eq]
      split
      · exact matches_ignore h
      · exact .mismatch _
    | _ => exact .wrongKind _ _
  · intro x w v d hv
    cases hv.sameKind with
    | dict ref entries =>
      have h := matches_spreadDict ih (solves_sym n s x) hkeys hv.entries
      rw [Pattern.solve?, if_pos (Pattern.covers_some _ _ _), Pattern.takeRest_some]
      exact .heap_bind h
    | _ => exact .wrongKind _ _

theorem solves_set (n : Nat) (s : ScopeRef) (as : List Scalar) (rest : Option String) :
    (recursor (n + 2)).Solves s (.set as rest) := by
  refine solves_of_literal .set (.set as) (as.map Scalar.expr) ?_ ?_ ?_ rest
  · intro rest
    rw [Pattern.expr]
  · intro w v d hv
    cases hv.sameKind with
    | set ref ds =>
      have h := matches_arrangedMembers (s := s) as hv.members
      rw [map_ofExpr_scalars, Pattern.solve?]
      refine .run_bind (run_setPattern as) (.heap_bind ?_)
      dsimp only
      rw [List.length_map, (perm_arrangedAtoms _ _).length_eq, hv.members.length_eq]
      simp only [Bool.and_eq_true, Pattern.covers_none, Pattern.takeRest_none]
      split
      · next hlength =>
        simp only [hlength, true_and]
        exact matches_ignore h
      · next hlength =>
        simp only [hlength, false_and, if_false]
        exact .mismatch _
    | _ => exact .wrongKind _ _
  · intro x w v d hv
    cases hv.sameKind with
    | set ref ds =>
      have h := matches_spreadSet as (solves_sym n s x) hv.members
      rw [Pattern.solve?]
      simp only [Pattern.covers_some, Bool.true_and, Pattern.takeRest_some]
      exact .heap_bind h
    | _ => exact .wrongKind _ _

/-- Matching does what the solution of the pattern says. -/
theorem solves {P : Pattern} (hP : P.Proper) (hn : P.fuel ≤ n) (s : ScopeRef) :
    (recursor n).Solves s P := by
  induction hP generalizing n with
  | sym x =>
    rw [Pattern.fuel] at hn
    obtain ⟨m, rfl⟩ : ∃ m, n = m + 1 := ⟨n - 1, by omega⟩
    exact solves_sym m s x
  | literal a =>
    rw [Pattern.fuel] at hn
    obtain ⟨m, rfl⟩ : ∃ m, n = m + 2 := ⟨n - 2, by omega⟩
    exact solves_literal m s a
  | @list ps rest _ ih =>
    rw [Pattern.fuel] at hn
    obtain ⟨hpos, hle⟩ := Pattern.le_fuelAll ps
    obtain ⟨m, rfl⟩ : ∃ m, n = m + 2 := ⟨n - 2, by omega⟩
    exact solves_list (fun p hp => ih p hp ((hle p hp).trans (by omega))) rest
  | @tuple ps rest _ ih =>
    rw [Pattern.fuel] at hn
    obtain ⟨hpos, hle⟩ := Pattern.le_fuelAll ps
    obtain ⟨m, rfl⟩ : ∃ m, n = m + 2 := ⟨n - 2, by omega⟩
    exact solves_tuple (fun p hp => ih p hp ((hle p hp).trans (by omega))) rest
  | @dict es rest hkeys _ ih =>
    rw [Pattern.fuel] at hn
    obtain ⟨hpos, hle⟩ := Pattern.le_entryFuel es
    obtain ⟨m, rfl⟩ : ∃ m, n = m + 2 := ⟨n - 2, by omega⟩
    exact solves_dict (fun e he => ih e he ((hle e he).trans (by omega))) hkeys rest
  | set as rest =>
    rw [Pattern.fuel] at hn
    obtain ⟨m, rfl⟩ : ∃ m, n = m + 2 := ⟨n - 2, by omega⟩
    exact solves_set m s as rest

end EvalM

end EventTally
