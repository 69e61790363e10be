import EventTally.Proofs.Datum.Order
import EventTally.Proofs.Eval.Series
import EventTally.Proofs.Renaming.Beside

/-! # Literals with spreads

A spread literal of the same kind is merged into the literal around it, and what is left of the plain
elements is grouped into smaller collections. Neither makes a difference: the literal means the
concatenation of its elements (`spread_concatenates`).

The collections that are made on the way are the only difference between the worlds. Nothing that is
evaluated later refers to them, so they hold their elements until these are collected (`Holds`).
-/

namespace EventTally

namespace EvalM

/-- `u` is a collection in the second heap that no part of the image refers to, and holds the images of
the values. -/
inductive Holds (ρ : Renaming) (h h' : Heap) : Series → Value → List Value → Prop
  | list {r : ListRef} {vs : List Value} (hspare : ∀ i < h.lists.size, ρ.lists i ≠ r.id)
      (hcell : h'.lists[r.id]? = some
        { slots := (vs.map ρ.value).toArray, size := (vs.map ρ.value).length }) :
      Holds ρ h h' .list (.list r) vs
  | tuple (vs : List Value) : Holds ρ h h' .tuple (.tuple (vs.map ρ.value)) vs
  | set {r : SetRef} {vs : List Value} (hspare : ∀ i < h.sets.size, ρ.sets i ≠ r.id)
      (hcell : h'.sets[r.id]? = some (Keyed.insertElems Value.sameKey [] (vs.map ρ.value)))
      (hhash : ∀ v ∈ vs.map ρ.value, v.hashable = true) : Holds ρ h h' .set (.set r) vs

/-- `u` is what an element gives in the second heap if those that it stands for give `vs` in the
first. -/
inductive Fits (k : Series) (ρ : Renaming) (h h' : Heap) (i : Item) : List Value → Value → Prop
  | alone {v : Value} (hparts : k.bracket.parts i = [i]) : Fits k ρ h h' i [v] (ρ.value v)
  | merged {es : List Expr} {vs : List Value} {u : Value} (hspread : i.spread = true)
      (hparts : k.bracket.parts i = es.map .plain) (hlength : vs.length = es.length)
      (hu : Holds ρ h h' k u vs) : Fits k ρ h h' i vs u

inductive Carries (k : Series) (ρ : Renaming) (h h' : Heap) :
    List Item → List Value → List Value → Prop
  | nil : Carries k ρ h h' [] [] []
  | cons {i : Item} {items : List Item} {vs vs' us : List Value} {u : Value}
      (hvs : ∀ v ∈ vs, h.HasValue v) (hfits : Fits k ρ h h' i vs u)
      (hrest : Carries k ρ h h' items vs' us) : Carries k ρ h h' (i :: items) (vs ++ vs') (u :: us)

theorem Carries.hasValue {k : Series} {ρ : Renaming} {h h' : Heap} {items : List Item}
    {vs us : List Value} (hcarries : Carries k ρ h h' items vs us) : ∀ v ∈ vs, h.HasValue v := by
  induction hcarries with
  | nil => exact List.forall_mem_nil _
  | cons hvs _ _ ih => exact List.forall_mem_append.mpr ⟨hvs, ih⟩

section

variable {k : Series} {ρ ρ' : Renaming} {h₁ h₁' h₂ h₂' : Heap} {i : Item} {items : List Item}
  {vs us : List Value} {u : Value} (hmoves : Heap.Moves ρ ρ' h₁ h₁' h₂ h₂')
include hmoves

theorem Holds.moves (hvs : ∀ v ∈ vs, h₁.HasValue v) (hu : Holds ρ h₁ h₁' k u vs) :
    Holds ρ' h₂ h₂' k u vs := by
  have hsame : vs.map ρ'.value = vs.map ρ.value := hmoves.agree.values hvs
  cases hu with
  | list hspare hcell =>
    obtain ⟨hspare, hkept⟩ := hmoves.lists.kept (Array.getElem?_eq_some_iff.mp hcell).1 hspare
    rw [← hsame] at hcell
    exact .list hspare (hkept.trans hcell)
  | tuple =>
    rw [← hsame]
    exact .tuple _
  | set hspare hcell hhash =>
    obtain ⟨hspare, hkept⟩ := hmoves.sets.kept (Array.getElem?_eq_some_iff.mp hcell).1 hspare
    rw [← hsame] at hcell hhash
    exact .set hspare (hkept.trans hcell) hhash

theorem Fits.moves (hvs : ∀ v ∈ vs, h₁.HasValue v) (hfits : Fits k ρ h₁ h₁' i vs u) :
    Fits k ρ' h₂ h₂' i vs u := by
  cases hfits with
  | @alone v hparts =>
    rw [← hmoves.agree.value (hvs v (List.mem_singleton_self v))]
    exact .alone hparts
  | merged hspread hparts hlength hu => exact .merged hspread hparts hlength (hu.moves hmoves hvs)

theorem Carries.moves (hcarries : Carries k ρ h₁ h₁' items vs us) :
    Carries k ρ' h₂ h₂' items vs us := by
  induction hcarries with
  | nil => exact .nil
  | cons hvs hfits _ ih =>
    exact .cons (fun v hv => (hvs v hv).within hmoves.within) (hfits.moves hmoves hvs) ih

end

/-- From two worlds beside each other to two later ones. -/
structure Along (ρ ρ' : Renaming) (w w' w₁ w₁' : World) : Prop where
  moves : Heap.Moves ρ ρ' w.heap w'.heap w₁.heap w₁'.heap
  beside : Beside ρ' w₁ w₁'

theorem Along.trans {ρ ρ' ρ'' : Renaming} {w w' w₁ w₁' w₂ w₂' : World} (h : Along ρ ρ' w w' w₁ w₁')
    (h' : Along ρ' ρ'' w₁ w₁' w₂ w₂') : Along ρ ρ'' w w' w₂ w₂' :=
  ⟨h.moves.trans h'.moves, h'.beside⟩

section

variable {k : Series} {ρ : Renaming} {w w' w₁ w₁' : World} {s s' : ScopeRef} {u : Value}
  {vs us : List Value} (hbeside : Beside ρ w w')
include hbeside

theorem holds_make (h : (applyStrict k.make (vs.map ρ.value)).run w' = (.ok u, w₁')) :
    Along ρ ρ w w' w w₁' ∧ Holds ρ w.heap w₁'.heap k u vs := by
  cases k with
  | list =>
    obtain ⟨heq, rfl⟩ := Prod.mk.inj h
    cases heq
    refine ⟨⟨.of_extends _ _ (.newList _ _), hbeside.newList _⟩, ?_⟩
    exact .list (fun i hi => (hbeside.copies.lists.lt hi).ne) Array.getElem?_push_size
  | tuple =>
    obtain ⟨heq, rfl⟩ := Prod.mk.inj h
    cases heq
    exact ⟨⟨.refl _ _ _, hbeside⟩, .tuple vs⟩
  | set =>
    have hhash := hashable_of_makeSet h
    change (makeSet _).run w' = _ at h
    rw [run_makeSet hhash] at h
    obtain ⟨heq, rfl⟩ := Prod.mk.inj h
    cases heq
    refine ⟨⟨.of_extends _ _ (.newSet _ _), hbeside.extend (.newSet _ _) rfl rfl⟩, ?_⟩
    exact .set (fun i hi => (hbeside.copies.sets.lt hi).ne) Array.getElem?_push_size hhash

variable (hs : w.heap.HasScope s) (hscope : ρ.scope s = s')
include hs hscope

theorem along_evalAll (n : Nat) (es : List Expr) :
    let x := (evalAll (recursor n) s (Code.ofExprs es)).run w
    let y := (evalAll (recursor n) s' (Code.ofExprs es)).run w'
    ∃ ρ', Along ρ ρ' w w' x.2 y.2 ∧ Matched (fun vs us => us = vs.map ρ'.value) Eq x.1 y.1 ∧
      ∀ vs, x.1 = .ok vs → ∀ v ∈ vs, x.2.heap.HasValue v := by
  intro x y
  have hmirrors (P : Pairing) (s : ScopeRef) : P.Mirrors (List.map P.ρ.value)
      (evalAll (recursor n) s (Code.ofExprs es))
      (evalAll (recursor n) (P.ρ.scope s) (Code.ofExprs es)) := by
    have heval := mirrors_evalAll (mirrored_recursor P n) s (Code.ofExprs es)
    rwa [← Renaming.codes_eq_map, Renaming.codes_ofExprs] at heval
  obtain ⟨ρ', hmoves, hbeside', hmatch, hfixed⟩ := beside_source (g := fun ρ => List.map ρ.value)
    (x := fun s => evalAll (recursor n) s (Code.ofExprs es)) hmirrors hbeside hs hscope
  refine ⟨ρ', ⟨hmoves, hbeside'⟩, hmatch, fun vs hvs => Renaming.hasValues_of_beyond ?_⟩
  rw [Renaming.values_eq_map]
  exact hfixed vs hvs

theorem yields_back {es : List Expr} (h : Yields (fun r => evalAll r s' (Code.ofExprs es)) w' us w₁') :
    ∃ ρ' vs w₁, Along ρ ρ' w w' w₁ w₁' ∧ Yields (fun r => evalAll r s (Code.ofExprs es)) w vs w₁ ∧
      (∀ v ∈ vs, w₁.heap.HasValue v) ∧ us = vs.map ρ'.value := by
  obtain ⟨n, hn⟩ := h
  obtain ⟨ρ', halong, hmatch, hhas⟩ := along_evalAll hbeside hs hscope n es
  rw [hn] at halong hmatch
  rcases hrun : (evalAll (recursor n) s (Code.ofExprs es)).run w with ⟨e | vs, w₁⟩
  · rw [hrun] at hmatch
    cases hmatch
  · rw [hrun] at halong hmatch hhas
    exact ⟨ρ', vs, w₁, halong, ⟨n, hrun⟩, hhas vs rfl, hmatch⟩

theorem yields_forth {es : List Expr} (h : Yields (fun r => evalAll r s (Code.ofExprs es)) w vs w₁) :
    ∃ ρ' w₁', Along ρ ρ' w w' w₁ w₁' ∧
      Yields (fun r => evalAll r s' (Code.ofExprs es)) w' (vs.map ρ'.value) w₁' ∧
      ∀ v ∈ vs, w₁.heap.HasValue v := by
  obtain ⟨n, hn⟩ := h
  obtain ⟨ρ', halong, hmatch, hhas⟩ := along_evalAll hbeside hs hscope n es
  rw [hn] at halong hmatch hhas
  rcases hrun : (evalAll (recursor n) s' (Code.ofExprs es)).run w' with ⟨e | us, w₁'⟩
  · rw [hrun] at hmatch
    cases hmatch
  · rw [hrun] at halong hmatch
    obtain rfl : us = vs.map ρ'.value := hmatch
    exact ⟨ρ', w₁', halong, ⟨n, hrun⟩, hhas vs rfl⟩

end

theorem yields_single {e : Expr} {s : ScopeRef} {w w₁ : World} {vs : List Value} :
    Yields (fun r => evalAll r s (Code.ofExprs [e])) w vs w₁ ↔
      ∃ v, vs = [v] ∧ Yields (·.eval (.ofExpr e) s) w v w₁ := by
  change Yields (fun r => evalAll r s [.ofExpr e]) w vs w₁ ↔ _
  rw [yields_evalAll_cons]
  constructor
  · rintro ⟨v, vs', w', rfl, hv, hrest⟩
    obtain ⟨rfl, rfl⟩ := yields_evalAll_nil.mp hrest
    exact ⟨v, rfl, hv⟩
  · rintro ⟨v, rfl, hv⟩
    exact ⟨v, [], w₁, rfl, hv, yields_evalAll_nil.mpr ⟨rfl, rfl⟩⟩

section

variable {k : Series} {ρ : Renaming} {w w' w₁ w₁' : World} {s s' : ScopeRef} {i : Item} {u : Value}
  {vs : List Value} (hbeside : Beside ρ w w') (hs : w.heap.HasScope s) (hscope : ρ.scope s = s')
  (hmake : w.heap.lookup s k.bracket.tag = some (.builtin (.strict k.make)))
include hbeside hs hscope hmake

theorem fits_back (h : Yields (·.eval (.ofExpr i.expr) s') w' u w₁') :
    ∃ ρ' vs w₁, Along ρ ρ' w w' w₁ w₁' ∧ Yields (evalItems (k.bracket.parts i) s) w vs w₁ ∧
      (∀ v ∈ vs, w₁.heap.HasValue v) ∧ Fits k ρ' w₁.heap w₁'.heap i vs u := by
  unfold evalItems
  obtain hparts | ⟨es, rfl, hparts⟩ := k.bracket.parts_cases i
  · obtain ⟨ρ', vs, w₁, halong, hyields, hhas, hus⟩ :=
      yields_back hbeside hs hscope (yields_single.mpr ⟨u, rfl, h⟩)
    obtain ⟨v, rfl, -⟩ := yields_single.mp hyields
    obtain rfl : u = ρ'.value v := List.singleton_inj.mp hus
    refine ⟨ρ', [v], w₁, halong, ?_, hhas, .alone hparts⟩
    rw [hparts]
    exact hyields
  · have hmake' := hscope ▸ hbeside.lookup_builtin hs hmake
    obtain ⟨us, w₀', hus, hrun⟩ := (yields_call hmake' (by cases k <;> rfl) es).mp h
    obtain ⟨ρ', vs, w₁, halong, hyields, hhas, rfl⟩ := yields_back hbeside hs hscope hus
    obtain ⟨halong', hu⟩ := holds_make halong.beside hrun
    have hlength := (length_of_yields hyields).trans (by rw [Code.ofExprs_eq_map, List.length_map])
    refine ⟨ρ', vs, w₁, halong.trans halong', ?_, hhas, .merged rfl hparts hlength hu⟩
    rw [hparts, Item.exprs_plain]
    exact hyields

theorem fits_forth (h : Yields (evalItems (k.bracket.parts i) s) w vs w₁)
    (hhash : k = .set → ∀ p ∈ (k.bracket.parts i).zip vs, p.1.spread = false → p.2.hashable = true) :
    ∃ ρ' u w₁', Along ρ ρ' w w' w₁ w₁' ∧ Yields (·.eval (.ofExpr i.expr) s') w' u w₁' ∧
      (∀ v ∈ vs, w₁.heap.HasValue v) ∧ Fits k ρ' w₁.heap w₁'.heap i vs u := by
  unfold evalItems at h
  obtain hparts | ⟨es, rfl, hparts⟩ := k.bracket.parts_cases i
  · rw [hparts] at h
    obtain ⟨ρ', w₁', halong, hyields, hhas⟩ := yields_forth hbeside hs hscope h
    obtain ⟨v, rfl, -⟩ := yields_single.mp h
    obtain ⟨u, hu, heval⟩ := yields_single.mp hyields
    obtain rfl : ρ'.value v = u := List.singleton_inj.mp hu
    exact ⟨ρ', _, w₁', halong, heval, hhas, .alone hparts⟩
  · rw [hparts, Item.exprs_plain] at h
    obtain ⟨ρ', w₀', halong, hyields, hhas⟩ := yields_forth hbeside hs hscope h
    have hlength := (length_of_yields h).trans (by rw [Code.ofExprs_eq_map, List.length_map])
    have hkeys : k = .set → ∀ v ∈ vs.map ρ'.value, v.hashable = true := by
      intro hk
      rw [ρ'.forall_hashable_iff]
      intro v hv
      have hzip : ((es.map Item.plain).zip vs).map Prod.snd = vs :=
        List.map_snd_zip (by rw [List.length_map, hlength])
      rw [← hzip] at hv
      obtain ⟨p, hp, rfl⟩ := List.mem_map.mp hv
      obtain ⟨e, -, he⟩ := List.mem_map.mp (List.of_mem_zip hp).1
      exact hhash hk p (hparts ▸ hp) (by rw [← he]; rfl)
    obtain ⟨u, w₁', hrun⟩ := (make_succeeds_iff (w := w₀') k).mpr hkeys
    obtain ⟨halong', hu⟩ := holds_make halong.beside hrun
    have hmake' := hscope ▸ hbeside.lookup_builtin hs hmake
    refine ⟨ρ', u, w₁', halong.trans halong', ?_, hhas, .merged rfl hparts hlength hu⟩
    exact (yields_call hmake' (by cases k <;> rfl) es).mpr ⟨_, w₀', hyields, hrun⟩

end

theorem yields_evalItems_append {items items' : List Item} {s : ScopeRef} {w w₂ : World} {vs : List Value} :
    Yields (evalItems (items ++ items') s) w vs w₂ ↔ ∃ us us' w₁, vs = us ++ us' ∧
      Yields (evalItems items s) w us w₁ ∧ Yields (evalItems items' s) w₁ us' w₂ := by
  have hcodes : Code.ofExprs (Item.exprs (items ++ items')) =
      Code.ofExprs (Item.exprs items) ++ Code.ofExprs (Item.exprs items') := by
    simp only [Code.ofExprs_eq_map, Item.exprs, List.map_append]
  unfold evalItems
  rw [hcodes]
  exact yields_evalAll_append

/-- The names of a literal stand for its builtins, and stay so while the expressions of the elements are
evaluated. -/
def Stays (k : Series) (s : ScopeRef) (w : World) (items : List Item) : Prop :=
  ∀ items', items' <+: items → ∀ vs w₁, Yields (evalItems items' s) w vs w₁ →
    w₁.heap.lookup s k.bracket.tag = some (.builtin (.strict k.make)) ∧
      w₁.heap.lookup s k.bracket.intoTag = some (.builtin (.strict k.into))

section

variable {k : Series} {ρ : Renaming} {w w' w₁ w₁' : World} {s s' : ScopeRef}
  {items items' : List Item} {vs us : List Value}

theorem yields_evalItems_nil (s : ScopeRef) (w : World) : Yields (evalItems [] s) w [] w := .pure []

theorem Stays.now (h : Stays k s w items) :
    w.heap.lookup s k.bracket.tag = some (.builtin (.strict k.make)) ∧
      w.heap.lookup s k.bracket.intoTag = some (.builtin (.strict k.into)) :=
  h [] List.nil_prefix [] w (yields_evalItems_nil s w)

theorem Stays.later (h : Stays k s w (items ++ items')) (hvs : Yields (evalItems items s) w vs w₁) :
    Stays k s w₁ items' := by
  intro items₁ hprefix vs₁ w₂ hvs₁
  refine h (items ++ items₁) ((List.prefix_append_right_inj items).mpr hprefix) (vs ++ vs₁) w₂ ?_
  exact yields_evalItems_append.mpr ⟨vs, vs₁, w₁, rfl, hvs, hvs₁⟩

theorem carries_back (hbeside : Beside ρ w w') (hs : w.heap.HasScope s) (hscope : ρ.scope s = s')
    (hstays : Stays k s w (k.bracket.flat items)) (h : Yields (evalItems items s') w' us w₁') :
    ∃ ρ' vs w₁, Along ρ ρ' w w' w₁ w₁' ∧ Yields (evalItems (k.bracket.flat items) s) w vs w₁ ∧
      Carries k ρ' w₁.heap w₁'.heap items vs us := by
  induction items generalizing ρ w w' us with
  | nil =>
    obtain ⟨rfl, rfl⟩ := yields_evalAll_nil.mp h
    exact ⟨ρ, [], w, ⟨.refl _ _ _, hbeside⟩, yields_evalItems_nil s w, .nil⟩
  | cons i items ih =>
    rw [Bracket.flat_cons] at hstays
    obtain ⟨u, us, w₀', rfl, hu, hus⟩ := yields_evalAll_cons.mp h
    obtain ⟨ρ₁, vs₁, w₁, halong₁, hvs₁, hhas, hfits⟩ :=
      fits_back hbeside hs hscope hstays.now.1 hu
    have hs₁ := hs.within halong₁.moves.within
    have hscope₁ := (halong₁.moves.agree.scope hs).trans hscope
    obtain ⟨ρ₂, vs₂, w₂, halong₂, hvs₂, hcarries⟩ :=
      ih halong₁.beside hs₁ hscope₁ (hstays.later hvs₁) hus
    refine ⟨ρ₂, vs₁ ++ vs₂, w₂, halong₁.trans halong₂, ?_, ?_⟩
    · rw [Bracket.flat_cons]
      exact yields_evalItems_append.mpr ⟨vs₁, vs₂, w₁, rfl, hvs₁, hvs₂⟩
    · exact .cons (fun v hv => (hhas v hv).within halong₂.moves.within)
        (hfits.moves halong₂.moves hhas) hcarries

theorem carries_forth (hbeside : Beside ρ w w') (hs : w.heap.HasScope s) (hscope : ρ.scope s = s')
    (hstays : Stays k s w (k.bracket.flat items))
    (h : Yields (evalItems (k.bracket.flat items) s) w vs w₁)
    (hhash : k = .set →
      ∀ p ∈ (k.bracket.flat items).zip vs, p.1.spread = false → p.2.hashable = true) :
    ∃ ρ' us w₁', Along ρ ρ' w w' w₁ w₁' ∧ Yields (evalItems items s') w' us w₁' ∧
      Carries k ρ' w₁.heap w₁'.heap items vs us := by
  induction items generalizing ρ w w' vs with
  | nil =>
    obtain ⟨rfl, rfl⟩ := yields_evalAll_nil.mp h
    exact ⟨ρ, [], w', ⟨.refl _ _ _, hbeside⟩, yields_evalItems_nil s' w', .nil⟩
  | cons i items ih =>
    rw [Bracket.flat_cons] at hstays h hhash
    obtain ⟨vs₁, vs₂, w₀, rfl, hvs₁, hvs₂⟩ := yields_evalItems_append.mp h
    rw [List.zip_append (length_of_evalItems hvs₁).symm] at hhash
    obtain ⟨ρ₁, u, w₀', halong₁, hu, hhas, hfits⟩ := fits_forth hbeside hs hscope hstays.now.1 hvs₁
      fun hk p hp => hhash hk p (List.mem_append_left _ hp)
    have hs₁ := hs.within halong₁.moves.within
    have hscope₁ := (halong₁.moves.agree.scope hs).trans hscope
    obtain ⟨ρ₂, us, w₂, halong₂, hus, hcarries⟩ :=
      ih halong₁.beside hs₁ hscope₁ (hstays.later hvs₁) hvs₂
        fun hk p hp => hhash hk p (List.mem_append_right _ hp)
    refine ⟨ρ₂, u :: us, w₂, halong₁.trans halong₂, ?_, ?_⟩
    · exact yields_evalAll_cons.mpr ⟨u, us, w₀', rfl, hu, hus⟩
    · exact .cons (fun v hv => (hhas v hv).within halong₂.moves.within)
        (hfits.moves halong₂.moves hhas) hcarries

end

section

variable {k : Series} {ρ : Renaming} {h h' final old : Heap} {items : List Item}
  {vs us : List Value} {u : Value}

theorem Holds.iterate (hu : Holds ρ h h' k u vs) :
    ∃ us, h'.iterate u = .ok us ∧ Condenses k (vs.map ρ.value) us := by
  cases hu with
  | list hspare hcell => exact ⟨_, congrArg Except.ok (Heap.elems_of_cell hcell), .same ..⟩
  | tuple => exact ⟨_, rfl, .same ..⟩
  | @set r _ hspare hcell hhash =>
    refine ⟨_, rfl, .members hhash ?_, fun h => absurd rfl h⟩
    rw [Heap.members, hcell, Option.getD_some]
    exact Keyed.perm_ranked _

/-- The elements of a literal give a sequence if those that they stand for do, and it is the same up to
members of a set that come again. -/
theorem Carries.sequence (himage : Heap.Image ρ final old h h') (hcarries : Carries k ρ h h' items vs us) :
    Matched (fun xs xs' => Condenses k (xs.map ρ.value) xs') (fun _ _ => True)
      (h.sequence (k.bracket.flat items) vs) (h'.sequence items us) := by
  induction hcarries with
  | nil => exact .same k []
  | @cons i items vs vs' us u hvs hfits _ ih =>
    rw [Bracket.flat_cons]
    cases hfits with
    | @alone v hparts =>
      have hshare : h'.share i (ρ.value v) = (h.share i v).map (List.map ρ.value) := by
        unfold Heap.share
        split
        · exact himage.iterate v
        · rfl
      rw [hparts, List.singleton_append, List.singleton_append, Heap.sequence, Heap.sequence, hshare]
      cases h.share i v with
      | error r => trivial
      | ok elems =>
        revert ih
        cases h.sequence (k.bracket.flat items) vs' <;> cases h'.sequence items us <;> intro ih
        · trivial
        · exact ih
        · exact ih
        · change Condenses k ((elems ++ _).map ρ.value) (elems.map ρ.value ++ _)
          rw [List.map_append]
          exact .append (.same ..) ih
    | @merged es _ _ hspread hparts hlength hu =>
      obtain ⟨ys, hiterate, hys⟩ := hu.iterate
      rw [hparts, sequence_plain_append es vs' hlength, Heap.sequence, Heap.share, if_pos hspread, hiterate]
      revert ih
      cases h.sequence (k.bracket.flat items) vs' <;> cases h'.sequence items us <;> intro ih
      · trivial
      · exact ih
      · exact ih
      · change Condenses k ((vs ++ _).map ρ.value) (ys ++ _)
        rw [List.map_append]
        exact .append hys ih

end

section

variable {k : Series} {ρ : Renaming} {w w' w₁ : World} {s : ScopeRef} {items : List Item} {v : Value}
  {vs elems : List Value}

theorem extends_make (h : (applyStrict k.make elems).run w = (.ok v, w₁)) :
    ∃ heap, w₁ = { w with heap := heap } ∧ w.heap.Extends heap ∧
      heap.closures.size = w.heap.closures.size ∧ heap.rank = w.heap.rank := by
  cases k with
  | list =>
    obtain ⟨-, rfl⟩ := Prod.mk.inj h
    exact ⟨_, rfl, .newList _ _, rfl, rfl⟩
  | tuple =>
    obtain ⟨-, rfl⟩ := Prod.mk.inj h
    exact ⟨_, rfl, .refl _, rfl, rfl⟩
  | set =>
    change (makeSet elems).run w = _ at h
    rw [run_makeSet (hashable_of_makeSet h)] at h
    obtain ⟨-, rfl⟩ := Prod.mk.inj h
    exact ⟨_, rfl, .newSet _ _, rfl, rfl⟩

end

section

variable {k : Series} {w : World} {s : ScopeRef} {items : List Item} (hw : w.heap.Closed)
  (hs : w.heap.HasScope s) (hstays : Stays k s w (k.bracket.flat items))
include hw hs hstays

theorem concatenation_back {v : Value} {w₁ : World} (h : Yields (concatenation k items s) w v w₁) :
    ∃ vs w₀ elems ρ, Yields (evalItems (k.bracket.flat items) s) w vs w₀ ∧
      w₀.heap.sequence (k.bracket.flat items) vs = .ok elems ∧
      (k = .set → ∀ e ∈ elems, e.hashable = true) ∧ (∀ e ∈ elems, w₀.heap.HasValue e) ∧
      Beside ρ w₀ w₁ ∧ ((k = .set → Datum.Coheres (elems.map w₀.heap.datum)) →
        Collects w₁.heap (elems.map ρ.value) k v) := by
  obtain ⟨us, w₀', elems', hus, helems', hmake⟩ := yields_concatenation.mp h
  obtain ⟨ρ, vs, w₀, halong, hvs, hcarries⟩ := carries_back (.refl hw) hs rfl hstays hus
  -- The renaming is taken up again, so that the heap is an image.
  have hbeside := halong.beside.resumed
  have himage := halong.beside.image w₀.heap
  have hcarries := hcarries.moves (himage.moves (.refl _))
  set ρ' := ρ.resume w₀.heap w₀'.heap
  have hsequence := hcarries.sequence himage
  rw [helems'] at hsequence
  cases helems : w₀.heap.sequence (k.bracket.flat items) vs with
  | error r =>
    rw [helems] at hsequence
    cases hsequence
  | ok elems =>
    rw [helems] at hsequence
    have hcondenses : Condenses k (elems.map ρ'.value) elems' := hsequence
    have hhash (hk : k = .set) : ∀ v ∈ elems, v.hashable = true := by
      have hkeys := (make_succeeds_iff k).mp ⟨v, w₁, hmake⟩ hk
      exact ρ'.forall_hashable_iff.mp (hcondenses.hashable_iff.mp hkeys)
    have hhas := hasValue_sequence hbeside.closed hcarries.hasValue helems
    obtain ⟨heap, rfl, hext, hcount, horder⟩ := extends_make hmake
    have hbeside₁ := hbeside.extend hext hcount horder
    refine ⟨vs, w₀, elems, ρ', hvs, helems, hhash, hhas, hbeside₁, fun hcoheres => ?_⟩
    refine hcondenses.collects (fun hk => ?_) hmake
    rw [hbeside₁.map_datum hhas]
    exact hcoheres hk

theorem concatenation_merged {v : Value} {w₁ : World} (h : Yields (concatenation k items s) w v w₁) :
    ∃ u w₂, Yields (concatenation k (k.bracket.flat items) s) w u w₂ := by
  obtain ⟨vs, w₀, elems, -, hvs, helems, hhash, -⟩ := concatenation_back hw hs hstays h
  obtain ⟨u, w₂, hmake⟩ := (make_succeeds_iff (w := w₀) k).mpr hhash
  exact ⟨u, w₂, yields_concatenation.mpr ⟨vs, w₀, elems, hvs, helems, hmake⟩⟩

theorem concatenation_forth {u : Value} {w₂ : World}
    (h : Yields (concatenation k (k.bracket.flat items) s) w u w₂) :
    ∃ v w₁, Yields (concatenation k items s) w v w₁ := by
  obtain ⟨vs, w₀, elems, hvs, helems, hmake⟩ := yields_concatenation.mp h
  have hhash := (make_succeeds_iff k).mp ⟨u, w₂, hmake⟩
  obtain ⟨ρ, us, w₀', halong, hus, hcarries⟩ := carries_forth (.refl hw) hs rfl hstays hvs
    fun hk p hp hplain => hhash hk _ (mem_sequence (length_of_evalItems hvs) helems hp hplain)
  have himage := halong.beside.image w₀.heap
  have hcarries := hcarries.moves (himage.moves (.refl _))
  have hsequence := hcarries.sequence himage
  rw [helems] at hsequence
  cases helems' : w₀'.heap.sequence items us with
  | error r =>
    rw [helems'] at hsequence
    cases hsequence
  | ok elems' =>
    rw [helems'] at hsequence
    obtain ⟨v, w₁, hmake'⟩ := (make_succeeds_iff (w := w₀') k).mpr fun hk =>
      Condenses.hashable_iff hsequence |>.mpr
        ((ρ.resume w₀.heap w₀'.heap).forall_hashable_iff.mpr (hhash hk))
    exact ⟨v, w₁, yields_concatenation.mpr ⟨us, w₀', elems', hus, helems', hmake'⟩⟩

end

section

variable {ρ : Renaming} {w₀ w₁ : World} {v : Value} {elems : List Value} (hbeside : Beside ρ w₀ w₁)
  (hhas : ∀ e ∈ elems, w₀.heap.HasValue e)
include hbeside hhas

theorem perm_members {r : SetRef}
    (hr : (w₁.heap.members r).Perm (Keyed.insertElems w₁.heap.equal [] (elems.map ρ.value))) :
    (w₁.heap.members r).Perm ((Keyed.insertElems w₀.heap.equal [] elems).map ρ.value) := by
  have hequal : ∀ x ∈ elems, ∀ y ∈ elems,
      w₁.heap.equal (ρ.value x) (ρ.value y) = w₀.heap.equal x y := fun x hx y hy => by
    unfold Heap.equal
    rw [hbeside.datum (hhas x hx), hbeside.datum (hhas y hy)]
  rwa [Keyed.insertElems_map hequal] at hr

theorem Collects.equal {k : Series} {ρ' : Renaming} {w₁' : World} {v' : Value} {d : Datum}
    (hbeside' : Beside ρ' w₀ w₁') (hv : Collects w₁.heap (elems.map ρ.value) k v)
    (hv' : Collects w₁'.heap (elems.map ρ'.value) k v') (hd : w₁.heap.datum? v = some d)
    (hregular : d.Regular) : ∃ d', w₁'.heap.datum? v' = some d' ∧ d.equal d' = true := by
  obtain ⟨hfinite, rfl⟩ := Heap.datum?_eq_some hd
  cases hv with
  | @list r hr =>
    cases hv' with
    | @list r' hr' =>
      have hfinite' : w₁'.heap.isFinite (.list r') = true := by
        rw [Heap.isFinite_list, hr', hbeside'.forall_isFinite hhas, ← hbeside.forall_isFinite hhas, ← hr]
        exact Heap.isFinite_list.mp hfinite
      refine ⟨_, Heap.datum?_of_isFinite hfinite', ?_⟩
      rw [Heap.datum_list hfinite', hr', hbeside'.map_datum hhas, ← hbeside.map_datum hhas, ← hr,
        ← Heap.datum_list hfinite]
      exact hregular.equal_self
  | tuple =>
    cases hv' with
    | tuple =>
      have hfinite' : w₁'.heap.isFinite (.tuple (elems.map ρ'.value)) = true := by
        rw [Heap.isFinite_tuple, hbeside'.forall_isFinite hhas, ← hbeside.forall_isFinite hhas]
        exact Heap.isFinite_tuple.mp hfinite
      refine ⟨_, Heap.datum?_of_isFinite hfinite', ?_⟩
      rw [Heap.datum_tuple hfinite', hbeside'.map_datum hhas, ← hbeside.map_datum hhas,
        ← Heap.datum_tuple hfinite]
      exact hregular.equal_self
  | @set r hr =>
    cases hv' with
    | @set r' hr' =>
      have hperm := perm_members hbeside hhas hr
      have hperm' := perm_members hbeside' hhas hr'
      have hmembers : ∀ e ∈ Keyed.insertElems w₀.heap.equal [] elems, w₀.heap.HasValue e := fun e he =>
        hhas e ((Keyed.mem_insertElems he).resolve_left List.not_mem_nil)
      have hfinite' : w₁'.heap.isFinite (.set r') = true := by
        refine Heap.isFinite_set.mpr fun v hv => ?_
        refine (hbeside'.forall_isFinite hmembers).mpr ?_ v (hperm'.mem_iff.mp hv)
        refine (hbeside.forall_isFinite hmembers).mp fun v hv => ?_
        exact Heap.isFinite_set.mp hfinite v (hperm.mem_iff.mpr hv)
      refine ⟨_, Heap.datum?_of_isFinite hfinite', ?_⟩
      rw [Heap.datum_set hfinite] at hregular ⊢
      rw [Heap.datum_set hfinite']
      refine hregular.equal_set_of_perm ((hperm.map _).trans ?_)
      rw [hbeside.map_datum hmembers, ← hbeside'.map_datum hmembers]
      exact (hperm'.map _).symm

end

/-- **Spread literals mean concatenation.** Where the names of a literal stand for its builtins, its tree
evaluates to what comes of evaluating all its elements from left to right, replacing each plain one by its
value and each spread one by the elements of its value, and making a collection of that sequence. Both
succeed or neither does. Both leave the world that comes of evaluating each element once, those of spread
literals of the same kind included, with more objects in it, and both give a collection of the sequence:
equal ones if they are finite. For sets equality must be transitive among the members, and equal ones must
have one hash. -/
theorem spread_concatenates (k : Series) (items : List Item) {w : World} {s : ScopeRef}
    (hw : w.heap.Closed) (hs : w.heap.HasScope s) (hstays : Stays k s w (k.bracket.flat items)) :
    ((∃ v w₁, Yields (·.eval (.ofExpr (k.bracket.desugar items)) s) w v w₁) ↔
      ∃ v w₁, Yields (concatenation k items s) w v w₁) ∧
    ∀ {v v' w₁ w₁'}, Yields (·.eval (.ofExpr (k.bracket.desugar items)) s) w v w₁ →
      Yields (concatenation k items s) w v' w₁' →
      ∃ vs w₀ elems ρ ρ', Yields (evalItems (k.bracket.flat items) s) w vs w₀ ∧
        w₀.heap.sequence (k.bracket.flat items) vs = .ok elems ∧ Beside ρ w₀ w₁ ∧ Beside ρ' w₀ w₁' ∧
        ((k = .set → Datum.Coheres (elems.map w₀.heap.datum)) →
          Collects w₁.heap (elems.map ρ.value) k v ∧ Collects w₁'.heap (elems.map ρ'.value) k v' ∧
          ∀ d, w₁.heap.datum? v = some d → d.Regular →
            ∃ d', w₁'.heap.datum? v' = some d' ∧ d.equal d' = true) := by
  obtain ⟨items', hflat, htree⟩ := yields_desugar k items
  obtain ⟨hmake, hinto⟩ := hstays.now
  have hstays' : Stays k s w (k.bracket.flat items') := by
    rw [hflat]
    exact hstays
  refine ⟨⟨?_, ?_⟩, fun {v v' w₁ w₁'} hv hv' => ?_⟩
  · rintro ⟨v, w₁, hv⟩
    have hu := concatenation_merged hw hs hstays' ((htree hmake hinto).mp hv)
    rw [hflat] at hu
    obtain ⟨u, w₂, hu⟩ := hu
    exact concatenation_forth hw hs hstays hu
  · rintro ⟨v, w₁, hv⟩
    have hu := concatenation_merged hw hs hstays hv
    rw [← hflat] at hu
    obtain ⟨u, w₂, hu⟩ := hu
    obtain ⟨v, w₁, hv⟩ := concatenation_forth hw hs hstays' hu
    exact ⟨v, w₁, (htree hmake hinto).mpr hv⟩
  · obtain ⟨vs, w₀, elems, ρ, hvs, helems, -, hhas, hbeside, hcollects⟩ :=
      concatenation_back hw hs hstays' ((htree hmake hinto).mp hv)
    obtain ⟨vs', w₀', elems', ρ', hvs', helems', -, -, hbeside', hcollects'⟩ :=
      concatenation_back hw hs hstays hv'
    rw [hflat] at hvs helems
    obtain ⟨rfl, rfl⟩ := hvs.unique (patient_evalItems _ s) hvs'
    obtain rfl := Except.ok.inj (helems.symm.trans helems')
    refine ⟨vs, w₀, elems, ρ, ρ', hvs, helems, hbeside, hbeside', fun hcoheres => ?_⟩
    refine ⟨hcollects hcoheres, hcollects' hcoheres, fun d hd hregular => ?_⟩
    exact Collects.equal hbeside hhas hbeside' (hcollects hcoheres) (hcollects' hcoheres) hd hregular

def spreadItems : List Item :=
  [.plain (.atom (.int 1)), .spreading (.tagged "set" [.atom (.int 2), .atom (.int 1)]),
    .spreading (.tagged "tuple" [.atom (.int 2), .atom (.int 3)])]

theorem stays_spreadItems :
    Stays .set Heap.builtinScope .initial (Series.set.bracket.flat spreadItems) := by
  intro items' hprefix vs w₁ hvs
  have hrun : ∃ vs, Yields (evalItems items' Heap.builtinScope) .initial vs .initial := by
    obtain ⟨n, rfl⟩ : ∃ n, items' = (Series.set.bracket.flat spreadItems).take n :=
      ⟨_, List.prefix_iff_eq_take.mp hprefix⟩
    have hlength : (Series.set.bracket.flat spreadItems).length = 4 := rfl
    rcases n with _ | _ | _ | _ | n
    · exact ⟨_, 3, by cbv⟩
    · exact ⟨_, 3, by cbv⟩
    · exact ⟨_, 3, by cbv⟩
    · exact ⟨_, 3, by cbv⟩
    · rw [List.take_of_length_le (by omega)]
      exact ⟨_, 3, by cbv⟩
  obtain ⟨vs', hvs'⟩ := hrun
  obtain ⟨-, rfl⟩ := hvs'.unique (patient_evalItems _ _) hvs
  exact ⟨by cbv, by cbv⟩

/-- The initial world with the set of a chunk and the set of all members. -/
def spreadWorld (chunk : List Value) : World :=
  { World.initial with heap :=
      ((Heap.initial.newSet chunk).2.newSet [.int 1, .int 2, .int 3]).2 }

theorem spread_concatenates_set :
    ∃ v v' w₁ w₁' d d', Yields (·.eval (.ofExpr (Bracket.set.desugar spreadItems)) Heap.builtinScope)
        .initial v w₁ ∧
      Yields (concatenation .set spreadItems Heap.builtinScope) .initial v' w₁' ∧
      w₁.heap.datum? v = some d ∧ w₁'.heap.datum? v' = some d' ∧ d.equal d' = true := by
  have htree : Yields (·.eval (.ofExpr (Bracket.set.desugar spreadItems)) Heap.builtinScope) .initial
      (.set ⟨1⟩) (spreadWorld [.int 1, .int 2]) := ⟨4, by cbv⟩
  have hsequence : Yields (concatenation .set spreadItems Heap.builtinScope) .initial
      (.set ⟨1⟩) (spreadWorld [.int 2, .int 1]) := ⟨4, by cbv⟩
  have hvs : Yields (evalItems (Series.set.bracket.flat spreadItems) Heap.builtinScope) .initial
      [.int 1, .int 2, .int 1, .tuple [.int 2, .int 3]] .initial := ⟨3, by cbv⟩
  obtain ⟨-, hsame⟩ := spread_concatenates .set spreadItems (w := .initial) Heap.closed_initial
    Nat.one_pos stays_spreadItems
  obtain ⟨vs, w₀, elems, ρ, ρ', hvs', helems, -, -, hdata⟩ := hsame htree hsequence
  obtain ⟨rfl, rfl⟩ := hvs.unique (patient_evalItems _ _) hvs'
  obtain rfl : [.int 1, .int 2, .int 1, .int 2, .int 3] = elems := Except.ok.inj helems
  have hexact {i : Int64} (h : i.toInt.natAbs ≤ 2 ^ 53) : (Datum.int i).Exact :=
    Datum.exact_int (Decimal.isExact_of_small h)
  have hcoheres : Datum.Coheres ([.int 1, .int 2, .int 1, .int 2, .int 3].map Heap.initial.datum) :=
    Datum.coheres_of_exact (by decide) (by simp [Heap.datum, hexact])
  obtain ⟨-, -, hequal⟩ := hdata fun _ => hcoheres
  have hregular : (Datum.set [.int 1, .int 2, .int 3]).Regular := by
    refine ⟨.set (by decide) (by simp [Datum.Sound.atom]), .set (by decide +kernel), fun f hf => ?_⟩
    cases hf with
    | set hmem hf =>
      simp only [List.mem_cons, List.not_mem_nil, or_false] at hmem
      rcases hmem with rfl | rfl | rfl <;> cases hf
  obtain ⟨d', hd', heq⟩ := hequal (.set [.int 1, .int 2, .int 3]) (by cbv) hregular
  exact ⟨_, _, _, _, _, d', htree, hsequence, by cbv, hd', heq⟩

end EvalM

end EventTally
