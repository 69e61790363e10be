import EventTally.Proofs.Eval.Entries
import EventTally.Proofs.Eval.Spread

/-! # Dict literals

The tree of a dict literal makes a dict of each run of plain elements first, then one of all pairs in these
and in the values of the spread expressions. Its children give the same pairs as the elements
(`Bears.pairs`), up to those in one run whose keys come again.

As for the other literals, the dicts that are made on the way are the only difference between the worlds,
and nothing refers to them, so they hold their pairs until these are collected (`Hoards`).
-/

namespace EventTally

open Keyed (insertElems)

theorem pairUp_map (f : Value → Value) (vs : List Value) :
    pairUp (vs.map f) = (pairUp vs).map fun e => (f e.1, f e.2) := by
  match vs with
  | [] | [_] => rfl
  | k :: v :: vs => exact congrArg ((f k, f v) :: ·) (pairUp_map f vs)

theorem mem_of_mem_pairUp {vs : List Value} : ∀ e ∈ pairUp vs, e.1 ∈ vs ∧ e.2 ∈ vs := by
  match vs with
  | [] | [_] => exact List.forall_mem_nil _
  | k :: v :: vs =>
    refine List.forall_mem_cons.mpr ⟨by simp, fun e he => ?_⟩
    obtain ⟨hkey, hvalue⟩ := mem_of_mem_pairUp e he
    exact ⟨by simp [hkey], by simp [hvalue]⟩

namespace EvalM

/-- `u` is a dict in the second heap that no part of the image refers to, and holds the images of the
pairs. -/
inductive Hoards (ρ : Renaming) (h h' : Heap) : Value → List (Value × Value) → Prop
  | dict {r : DictRef} {ps : List (Value × Value)} (hspare : ∀ i < h.dicts.size, ρ.dicts i ≠ r.id)
      (hcell : h'.dicts[r.id]? = some (insertElems Value.sameEntry [] (ps.map ρ.entry)))
      (hhash : ∀ e ∈ ps.map ρ.entry, e.1.hashable = true) : Hoards ρ h h' (.dict r) ps

/-- What the children of a literal give in the second heap if its elements give `vs` in the first. -/
inductive Bears (ρ : Renaming) (h h' : Heap) : List Item → List Value → List Value → Prop
  | nil : Bears ρ h h' [] [] []
  | chunk {run : List Expr} {items : List Item} {vs vs' us : List Value} {u : Value}
      (heven : Even run.length) (hlength : vs.length = run.length) (hvs : ∀ v ∈ vs, h.HasValue v)
      (hu : Hoards ρ h h' u (pairUp vs)) (hrest : Bears ρ h h' items vs' us) :
      Bears ρ h h' (run.map .plain ++ items) (vs ++ vs') (u :: us)
  | spread (e : Expr) {items : List Item} {v : Value} {vs us : List Value} (hv : h.HasValue v)
      (hrest : Bears ρ h h' items vs us) :
      Bears ρ h h' (.spreading e :: items) (v :: vs) (ρ.value v :: us)

section

variable {ρ ρ' : Renaming} {h₁ h₁' h₂ h₂' : Heap} {items items' : List Item} {vs vs' us us' : List Value}
  {u : Value} {ps : List (Value × Value)}

theorem Bears.append (hbears : Bears ρ h₁ h₁' items vs us) (hbears' : Bears ρ h₁ h₁' items' vs' us') :
    Bears ρ h₁ h₁' (items ++ items') (vs ++ vs') (us ++ us') := by
  induction hbears with
  | nil => exact hbears'
  | chunk heven hlength hvs hu _ ih =>
    rw [List.append_assoc, List.append_assoc]
    exact .chunk heven hlength hvs hu ih
  | spread e hv _ ih => exact .spread e hv ih

variable (hmoves : Heap.Moves ρ ρ' h₁ h₁' h₂ h₂')
include hmoves

theorem Hoards.moves (hps : ∀ e ∈ ps, h₁.HasValue e.1 ∧ h₁.HasValue e.2)
    (hu : Hoards ρ h₁ h₁' u ps) : Hoards ρ' h₂ h₂' u ps := by
  cases hu with
  | dict hspare hcell hhash =>
    obtain ⟨hspare, hkept⟩ := hmoves.dicts.kept (Array.getElem?_eq_some_iff.mp hcell).1 hspare
    have hsame : ps.map ρ'.entry = ps.map ρ.entry := by
      refine List.map_congr_left fun e he => ?_
      rw [Renaming.entry, Renaming.entry, hmoves.agree.value (hps e he).1, hmoves.agree.value (hps e he).2]
    rw [← hsame] at hcell hhash
    exact .dict hspare (hkept.trans hcell) hhash

theorem Bears.moves (hbears : Bears ρ h₁ h₁' items vs us) : Bears ρ' h₂ h₂' items vs us := by
  induction hbears with
  | nil => exact .nil
  | chunk heven hlength hvs hu _ ih =>
    refine .chunk heven hlength (fun v hv => (hvs v hv).within hmoves.within) (hu.moves hmoves ?_) ih
    intro e he
    obtain ⟨hkey, hvalue⟩ := mem_of_mem_pairUp e he
    exact ⟨hvs _ hkey, hvs _ hvalue⟩
  | spread e hv _ ih =>
    rw [← hmoves.agree.value hv]
    exact .spread e (hv.within hmoves.within) ih

end

/-- The names of a dict literal stand for its builtins, and stay so while the expressions of the elements
are evaluated. -/
def Keeps (s : ScopeRef) (w : World) (items : List Item) : Prop :=
  ∀ items', items' <+: items → ∀ vs w₁, Yields (evalItems items' s) w vs w₁ →
    w₁.heap.lookup s "dict" = some (.builtin .dict) ∧
      w₁.heap.lookup s "into_dict" = some (.builtin (.strict .intoDict))

section

variable {w w₁ : World} {s : ScopeRef} {items items' : List Item} {vs : List Value}

theorem Keeps.now (h : Keeps s w items) : w.heap.lookup s "dict" = some (.builtin .dict) ∧
    w.heap.lookup s "into_dict" = some (.builtin (.strict .intoDict)) :=
  h [] List.nil_prefix [] w (yields_evalItems_nil s w)

theorem Keeps.front (h : Keeps s w (items ++ items')) : Keeps s w items :=
  fun items₁ hfront => h items₁ (hfront.trans (List.prefix_append items items'))

theorem Keeps.later (h : Keeps s w (items ++ items')) (hvs : Yields (evalItems items s) w vs w₁) :
    Keeps s w₁ items' := by
  intro items₁ hprefix vs₁ w₂ hvs₁
  refine h (items ++ items₁) ((List.prefix_append_right_inj items).mpr hprefix) (vs ++ vs₁) w₂ ?_
  exact yields_evalItems_append.mpr ⟨vs, vs₁, w₁, rfl, hvs, hvs₁⟩

end

/-- What the children give in the second world, the elements give in the first. -/
def Back (items : List Item) (cs : List Expr) : Prop :=
  ∀ ⦃ρ w w' s s' us w₁'⦄, Beside ρ w w' → w.heap.HasScope s → ρ.scope s = s' → Keeps s w items →
    Yields (fun r => evalAll r s' (Code.ofExprs cs)) w' us w₁' →
    ∃ ρ' vs w₁, Along ρ ρ' w w' w₁ w₁' ∧ Yields (evalItems items s) w vs w₁ ∧
      Bears ρ' w₁.heap w₁'.heap items vs us

/-- What the elements give in the first world, the children give in the second, if the keys of the chunks
are hashable. -/
def Forth (items : List Item) (cs : List Expr) : Prop :=
  ∀ ⦃ρ w w' s s' vs w₁⦄, Beside ρ w w' → w.heap.HasScope s → ρ.scope s = s' → Keeps s w items →
    Yields (evalItems items s) w vs w₁ →
    (∃ (h : Heap) (ps : _), h.pairs? items vs = some ps ∧ ∀ e ∈ ps, e.1.hashable = true) →
    ∃ ρ' us w₁', Along ρ ρ' w w' w₁ w₁' ∧ Yields (fun r => evalAll r s' (Code.ofExprs cs)) w' us w₁' ∧
      Bears ρ' w₁.heap w₁'.heap items vs us

theorem ofExprs_append (es es' : List Expr) :
    Code.ofExprs (es ++ es') = Code.ofExprs es ++ Code.ofExprs es' := by
  simp only [Code.ofExprs_eq_map, List.map_append]

section

variable {items items' : List Item} {cs cs' : List Expr}

theorem Back.append (hback : Back items cs) (hback' : Back items' cs') :
    Back (items ++ items') (cs ++ cs') := by
  intro ρ w w' s s' us w₁' hbeside hs hscope hkeeps h
  rw [ofExprs_append] at h
  obtain ⟨us, us', w₀', rfl, hus, hus'⟩ := yields_evalAll_append.mp h
  obtain ⟨ρ₁, vs₁, w₁, halong₁, hvs₁, hbears₁⟩ := hback hbeside hs hscope hkeeps.front hus
  obtain ⟨ρ₂, vs₂, w₂, halong₂, hvs₂, hbears₂⟩ := hback' halong₁.beside (hs.within halong₁.moves.within)
    ((halong₁.moves.agree.scope hs).trans hscope) (hkeeps.later hvs₁) hus'
  refine ⟨ρ₂, vs₁ ++ vs₂, w₂, halong₁.trans halong₂, ?_, (hbears₁.moves halong₂.moves).append hbears₂⟩
  exact yields_evalItems_append.mpr ⟨vs₁, vs₂, w₁, rfl, hvs₁, hvs₂⟩

theorem back_spread (e : Expr) : Back [.spreading e] [e] := by
  intro ρ w w' s s' us w₁' hbeside hs hscope _ h
  obtain ⟨ρ', vs, w₁, halong, hvs, hhas, rfl⟩ := yields_back hbeside hs hscope h
  obtain ⟨v, rfl, -⟩ := yields_single.mp hvs
  exact ⟨ρ', [v], w₁, halong, hvs, .spread e (hhas v (List.mem_singleton_self v)) .nil⟩

theorem pairUp_values (ρ : Renaming) (vs : List Value) :
    pairUp (vs.map ρ.value) = (pairUp vs).map ρ.entry := pairUp_map ρ.value vs

theorem bears_chunk {ρ : Renaming} {w w' : World} (hbeside : Beside ρ w w') {run : List Expr}
    (heven : Even run.length) {vs : List Value} (hlength : vs.length = run.length)
    (hvs : ∀ v ∈ vs, w.heap.HasValue v) (hhash : ∀ e ∈ pairUp (vs.map ρ.value), e.1.hashable = true) :
    let made := w'.heap.newDict (insertElems Value.sameEntry [] (pairUp (vs.map ρ.value)))
    Along ρ ρ w w' w { w' with heap := made.2 } ∧
      Bears ρ w.heap made.2 (run.map .plain) vs [.dict made.1] := by
  intro made
  have hu : Hoards ρ w.heap made.2 (.dict made.1) (pairUp vs) := by
    rw [pairUp_values] at hhash
    refine .dict (fun i hi => (hbeside.copies.dicts.lt hi).ne) ?_ hhash
    rw [← pairUp_values]
    exact Array.getElem?_push_size
  have hbears : Bears ρ w.heap made.2 (run.map .plain ++ []) (vs ++ []) [.dict made.1] :=
    .chunk heven hlength hvs hu .nil
  rw [List.append_nil, List.append_nil] at hbears
  exact ⟨⟨.of_extends _ _ (.newDict _ _), hbeside.extend (.newDict _ _) rfl rfl⟩, hbears⟩

theorem length_of_run {run : List Expr} {s : ScopeRef} {w w₁ : World} {vs : List Value}
    (h : Yields (fun r => evalAll r s (Code.ofExprs run)) w vs w₁) : vs.length = run.length :=
  (length_of_yields h).trans (by rw [Code.ofExprs_eq_map, List.length_map])

theorem evalItems_plain (run : List Expr) (s : ScopeRef) :
    evalItems (run.map .plain) s = fun r => evalAll r s (Code.ofExprs run) := by
  unfold evalItems
  rw [Item.exprs_plain]

theorem back_chunk (run : List Expr) : Back (run.map .plain) (Bracket.dict.chunk run) := by
  intro ρ w w' s s' us w₁' hbeside hs hscope hkeeps h
  unfold Bracket.chunk at h
  split at h
  · next hrun =>
    obtain rfl := List.isEmpty_iff.mp hrun
    obtain ⟨rfl, rfl⟩ := yields_evalAll_nil.mp h
    exact ⟨ρ, [], w, ⟨.refl _ _ _, hbeside⟩, yields_evalItems_nil s w, .nil⟩
  · obtain ⟨u, rfl, hu⟩ := yields_single.mp h
    have hdict := hscope ▸ hbeside.lookup_builtin hs hkeeps.now.1
    obtain ⟨heven, us, w₀', hus, hhash, hrun⟩ := (yields_dict hdict run).mp hu
    obtain ⟨ρ', vs, w₁, halong, hvs, hhas, rfl⟩ := yields_back hbeside hs hscope hus
    obtain ⟨heq, rfl⟩ := Prod.mk.inj hrun
    cases heq
    obtain ⟨halong', hbears⟩ := bears_chunk halong.beside heven (length_of_run hvs) hhas hhash
    refine ⟨ρ', vs, w₁, halong.trans halong', ?_, hbears⟩
    rwa [evalItems_plain]

theorem forth_spread (e : Expr) : Forth [.spreading e] [e] := by
  intro ρ w w' s s' vs w₁ hbeside hs hscope _ h _
  obtain ⟨ρ', w₁', halong, hus, hhas⟩ := yields_forth hbeside hs hscope h
  obtain ⟨v, rfl, -⟩ := yields_single.mp h
  exact ⟨ρ', _, w₁', halong, hus, .spread e (hhas v (List.mem_singleton_self v)) .nil⟩

theorem forth_chunk (run : List Expr) : Forth (run.map .plain) (Bracket.dict.chunk run) := by
  intro ρ w w' s s' vs w₁ hbeside hs hscope hkeeps h ⟨heap, ps, hps, hhash⟩
  unfold Bracket.chunk
  split
  · next hrun =>
    obtain rfl := List.isEmpty_iff.mp hrun
    obtain ⟨rfl, rfl⟩ := yields_evalAll_nil.mp h
    exact ⟨ρ, [], w', ⟨.refl _ _ _, hbeside⟩, .pure [], .nil⟩
  · have heven := (Item.paired_plain run).mp (Heap.paired_of_pairs? hps)
    rw [evalItems_plain] at h
    rw [Heap.pairs?_plain heven (length_of_run h)] at hps
    cases hps
    obtain ⟨ρ', w₀', halong, hus, hhas⟩ := yields_forth hbeside hs hscope h
    have hhash' : ∀ e ∈ pairUp (vs.map ρ'.value), e.1.hashable = true := by
      rw [pairUp_values]
      exact List.forall_mem_map.mpr fun e he => (ρ'.hashable_value e.1).trans (hhash e he)
    obtain ⟨halong', hbears⟩ := bears_chunk halong.beside heven (length_of_run h) hhas hhash'
    have hdict := hscope ▸ hbeside.lookup_builtin hs hkeeps.now.1
    refine ⟨ρ', _, _, halong.trans halong', yields_single.mpr ⟨_, rfl, ?_⟩, hbears⟩
    exact (yields_dict hdict run).mpr ⟨heven, _, w₀', hus, hhash', rfl⟩

theorem Forth.append (hforth : Forth items cs) (hforth' : Forth items' cs')
    (hsplit : ∀ {h : Heap} {vs vs' ps}, vs.length = items.length →
      h.pairs? (items ++ items') (vs ++ vs') = some ps →
      ∃ qs qs', ps = qs ++ qs' ∧ h.pairs? items vs = some qs ∧ h.pairs? items' vs' = some qs') :
    Forth (items ++ items') (cs ++ cs') := by
  intro ρ w w' s s' vs w₁ hbeside hs hscope hkeeps h ⟨heap, ps, hps, hhash⟩
  obtain ⟨vs, vs', w₀, rfl, hvs, hvs'⟩ := yields_evalItems_append.mp h
  obtain ⟨qs, qs', rfl, hqs, hqs'⟩ := hsplit (length_of_evalItems hvs) hps
  obtain ⟨hhash, hhash'⟩ := List.forall_mem_append.mp hhash
  obtain ⟨ρ₁, us, w₀', halong₁, hus, hbears₁⟩ :=
    hforth hbeside hs hscope hkeeps.front hvs ⟨heap, qs, hqs, hhash⟩
  obtain ⟨ρ₂, us', w₁', halong₂, hus', hbears₂⟩ := hforth' halong₁.beside (hs.within halong₁.moves.within)
    ((halong₁.moves.agree.scope hs).trans hscope) (hkeeps.later hvs) hvs' ⟨heap, qs', hqs', hhash'⟩
  refine ⟨ρ₂, us ++ us', w₁', halong₁.trans halong₂, ?_, (hbears₁.moves halong₂.moves).append hbears₂⟩
  rw [ofExprs_append]
  exact yields_evalAll_append.mpr ⟨us, us', w₀', rfl, hus, hus'⟩

theorem lays_back (hlays : Bracket.dict.Lays items cs) : Back items cs := by
  induction hlays with
  | last run => exact back_chunk run
  | spread run e _ ih => exact (back_chunk run).append ((back_spread e).append ih)

theorem lays_forth (hlays : Bracket.dict.Lays items cs) : Forth items cs := by
  induction hlays with
  | last run => exact forth_chunk run
  | @spread run e items cs _ ih =>
    refine (forth_chunk run).append ((forth_spread e).append ih ?_) ?_
    · intro h vs vs' ps hlength hps
      obtain ⟨v, rfl⟩ := List.length_eq_one_iff.mp hlength
      rw [List.singleton_append, List.singleton_append, Heap.pairs?_spreading] at hps
      obtain ⟨qs, hqs, hps⟩ := Option.bind_eq_some_iff.mp hps
      obtain ⟨qs', hqs', rfl⟩ := Option.map_eq_some_iff.mp hps
      refine ⟨qs, qs', rfl, ?_, hqs'⟩
      rw [Heap.pairs?_spreading, hqs]
      exact congrArg some (List.append_nil qs)
    · intro h vs vs' ps hlength hps
      have heven := ((Item.paired_spreading run e items).mp (Heap.paired_of_pairs? hps)).1
      rw [List.length_map] at hlength
      have hqs := Heap.pairs?_plain (h := h) heven hlength
      rw [Heap.pairs?_append hqs] at hps
      obtain ⟨qs', hqs', rfl⟩ := Option.map_eq_some_iff.mp hps
      exact ⟨_, qs', rfl, hqs, hqs'⟩

end

section

variable {ρ : Renaming} {h h' final old : Heap} {items : List Item} {vs us : List Value} {u : Value}
  {ps : List (Value × Value)}

theorem mapM_pair?_tuples (h : Heap) (es : List (Value × Value)) :
    (es.map fun e => Value.tuple [e.1, e.2]).mapM h.pair? = some es := by
  induction es with
  | nil => rfl
  | cons e es ih =>
    rw [List.map_cons, List.mapM_cons, ih]
    rfl

theorem Hoards.pairsIn? (hu : Hoards ρ h h' u ps) : ∃ es, h'.pairsIn? u = some es ∧
    Keyed.Condenses Value.sameEntry (fun e => e.1.hashable = true) (ps.map ρ.entry) es := by
  cases hu with
  | @dict r ps hspare hcell hhash =>
    refine ⟨_, mapM_pair?_tuples h' _, .members hhash ?_⟩
    rw [Heap.entries, hcell, Option.getD_some]
    exact Keyed.perm_ranked _

variable (himage : Heap.Image ρ final old h h')
include himage

theorem pair?_image (v : Value) : h'.pair? (ρ.value v) = (h.pair? v).map ρ.entry := by
  unfold Heap.pair?
  rw [himage.iterate]
  cases h.iterate v with
  | error r => rfl
  | ok elems =>
    match elems with
    | [] | [_] | [_, _] | _ :: _ :: _ :: _ => rfl

theorem pairsIn?_image (v : Value) : h'.pairsIn? (ρ.value v) = (h.pairsIn? v).map (List.map ρ.entry) := by
  have hmap (elems : List Value) :
      (elems.map ρ.value).mapM h'.pair? = (elems.mapM h.pair?).map (List.map ρ.entry) := by
    induction elems with
    | nil => rfl
    | cons v elems ih =>
      rw [List.map_cons, List.mapM_cons, List.mapM_cons, ih, pair?_image himage]
      cases h.pair? v with
      | none => rfl
      | some e => cases elems.mapM h.pair? <;> rfl
  unfold Heap.pairsIn?
  rw [himage.iterate]
  cases h.iterate v with
  | error r => rfl
  | ok elems => exact hmap elems

/-- The children give pairs if the elements do, and the same ones up to those in chunks whose keys come
again. -/
theorem Bears.pairs (hbears : Bears ρ h h' items vs us) :
    (h.pairs? items vs = none ∧ h'.allPairs? us = none) ∨ ∃ ps ps', h.pairs? items vs = some ps ∧
      h'.allPairs? us = some ps' ∧
      Keyed.Condenses Value.sameEntry (fun e => e.1.hashable = true) (ps.map ρ.entry) ps' := by
  induction hbears with
  | nil => exact .inr ⟨[], [], rfl, rfl, .same []⟩
  | @chunk run items vs vs' us u heven hlength _ hu _ ih =>
    obtain ⟨es, hentries, hes⟩ := hu.pairsIn?
    have hall : h'.allPairs? (u :: us) = (h'.allPairs? us).map (es ++ ·) := by
      rw [Heap.allPairs?, hentries]
      cases h'.allPairs? us <;> rfl
    rw [Heap.pairs?_append (Heap.pairs?_plain heven hlength), hall]
    obtain ⟨hnone, hnone'⟩ | ⟨ps, ps', hps, hps', hcondenses⟩ := ih
    · exact .inl ⟨by rw [hnone]; rfl, by rw [hnone']; rfl⟩
    · refine .inr ⟨_, _, congrArg _ hps, congrArg _ hps', ?_⟩
      rw [List.map_append]
      exact .append hes hcondenses
  | @spread e items v vs us hv _ ih =>
    have hall : h'.allPairs? (ρ.value v :: us) = ((h.pairsIn? v).map (List.map ρ.entry)).bind fun qs =>
        (h'.allPairs? us).map (qs ++ ·) := by
      rw [Heap.allPairs?, pairsIn?_image himage]
      cases h.pairsIn? v with
      | none => rfl
      | some qs => cases h'.allPairs? us <;> rfl
    rw [Heap.pairs?_spreading, hall]
    cases h.pairsIn? v with
    | none => exact .inl ⟨rfl, rfl⟩
    | some qs =>
      obtain ⟨hnone, hnone'⟩ | ⟨ps, ps', hps, hps', hcondenses⟩ := ih
      · exact .inl ⟨by rw [hnone]; rfl, by rw [hnone']; rfl⟩
      · refine .inr ⟨qs ++ ps, qs.map ρ.entry ++ ps', by rw [hps]; rfl, by rw [hps']; rfl, ?_⟩
        rw [List.map_append]
        exact .append (.same _) hcondenses

end

end EvalM

end EventTally
