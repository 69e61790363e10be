import EventTally.Proofs.Eval.Pairing

/-! # What dict literals mean

The tree of a dict literal evaluates to the dict of the pairs that its elements give (`dict_pairs`). The
pairs are found in the elements of merged literals (`Bracket.flat`), so a spread literal of the same kind may
be completed by a key before it and a value after it.
-/

namespace EventTally

open Keyed (insertElems)

namespace EvalM

section

variable {ρ : Renaming} {w w' : World} {ps : List (Value × Value)}

/-- The keys of the pairs, as data. -/
def keyData (h : Heap) (ps : List (Value × Value)) : List Datum := ps.map fun e => h.datum e.1

/-- The keys of two pairs are equal. -/
def equalKeys (h : Heap) (e e' : Value × Value) : Bool := (h.datum e.1).equal (h.datum e'.1)

theorem sameEntry_eq {h : Heap} (hcoheres : Datum.Coheres (keyData h ps))
    (hhash : ∀ e ∈ ps, e.1.hashable = true) :
    ∀ e ∈ ps, ∀ e' ∈ ps, Value.sameEntry e e' = equalKeys h e e' := by
  intro e he e' he'
  have hmem {e : Value × Value} (he : e ∈ ps) : h.datum e.1 ∈ keyData h ps :=
    List.mem_map_of_mem (f := fun e => h.datum e.1) he
  refine (h.sameKey_eq (hhash e he) (hhash e' he')).symm.trans ?_
  exact hcoheres.sameKey_eq (hmem he) (hmem he')

theorem value_of_hashable (hfunctions : ρ.closures = id) {v : Value} (hv : v.hashable = true) :
    ρ.value v = v := by
  match v with
  | .atom _ | .builtin _ => rfl
  | .closure r =>
    change Value.closure ⟨ρ.closures r.id⟩ = .closure r
    rw [hfunctions]
    rfl
  | .tuple vs =>
    have hvs : vs.map ρ.value = vs.map id := List.map_congr_left fun v hmem =>
      value_of_hashable hfunctions ((Value.allHashable_iff vs).mp hv v hmem)
    rw [Renaming.value_tuple, hvs, List.map_id]

theorem coherent_sameEntry {h : Heap} (hcoheres : Datum.Coheres (keyData h ps))
    (hhash : ∀ e ∈ ps, e.1.hashable = true) :
    Keyed.Coherent Value.sameEntry fun e => ∃ e' ∈ ps, e'.1 = e.1 := by
  have hequal := sameEntry_eq hcoheres hhash
  have hmem {e : Value × Value} (he : e ∈ ps) : h.datum e.1 ∈ keyData h ps :=
    List.mem_map_of_mem (f := fun e => h.datum e.1) he
  constructor
  · rintro ⟨_, va⟩ ⟨_, vb⟩ ⟨a, ha, rfl⟩ ⟨b, hb, rfl⟩ hab
    change Value.sameEntry a b = true at hab
    change Value.sameEntry b a = true
    rw [hequal a ha b hb] at hab
    rw [hequal b hb a ha]
    exact Datum.equal_symm ((h.hashable_eq a.1).trans (hhash a ha)) hab
  · rintro ⟨_, va⟩ ⟨_, vb⟩ ⟨_, vc⟩ ⟨a, ha, rfl⟩ ⟨b, hb, rfl⟩ ⟨c, hc, rfl⟩ hab hbc
    change Value.sameEntry a b = true at hab
    change Value.sameEntry b c = true at hbc
    change Value.sameEntry a c = true
    rw [hequal a ha b hb] at hab
    rw [hequal b hb c hc] at hbc
    rw [hequal a ha c hc]
    exact hcoheres.trans _ (hmem ha) _ (hmem hb) _ (hmem hc) hab hbc

theorem insertElems_entries (hfunctions : ρ.closures = id) (hhash : ∀ e ∈ ps, e.1.hashable = true) :
    insertElems Value.sameEntry [] (ps.map ρ.entry) =
      (insertElems Value.sameEntry [] ps).map ρ.entry := by
  have hentry (e : Value × Value) (he : e.1.hashable = true) : ρ.entry e = (e.1, ρ.value e.2) := by
    rw [Renaming.entry, value_of_hashable hfunctions he]
  rw [List.map_congr_left fun e he => hentry e (hhash e he)]
  refine (Keyed.insertElems_map (f := fun e : Value × Value => (e.1, ρ.value e.2))
    fun _ _ _ _ => rfl).trans ?_
  refine List.map_congr_left fun e he => (hentry e ?_).symm
  obtain he | he := Keyed.mem_insertElems he
  · cases he
  · exact hhash e he

theorem entries_newDict (h : Heap) (es : List (Value × Value)) :
    (h.newDict es).2.entries (h.newDict es).1 = es := by
  have hcell : (h.newDict es).2.dicts[(h.newDict es).1.id]? = some es := Array.getElem?_push_size
  rw [Heap.entries, hcell, Option.getD_some]

end

section

variable {w : World} {s : ScopeRef} {items : List Item} (hw : w.heap.Closed) (hs : w.heap.HasScope s)
  (hkeeps : Keeps s w (Bracket.dict.flat items))
include hw hs hkeeps

theorem dict_back {v : Value} {w₁ : World}
    (h : Yields (·.eval (.ofExpr (Bracket.dict.desugar items)) s) w v w₁) :
    ∃ vs w₀ ps, Yields (evalItems (Bracket.dict.flat items) s) w vs w₀ ∧
      w₀.heap.pairs? (Bracket.dict.flat items) vs = some ps ∧ (∀ e ∈ ps, e.1.hashable = true) ∧
      ∃ ρ r, Beside ρ w₀ w₁ ∧ v = .dict r ∧ (Datum.Coheres (keyData w₀.heap ps) →
        (w₁.heap.entries r).Perm ((insertElems (equalKeys w₀.heap) [] ps).map ρ.entry)) := by
  obtain ⟨es, htree, hflat⟩ | ⟨cs, htree, hlays⟩ := Bracket.desugar_lays (b := .dict) items
  · rw [htree] at h
    obtain ⟨heven, vs, w₀, hvs, hhash, hrun⟩ := (yields_dict hkeeps.now.1 es).mp h
    obtain ⟨_, _, halong, -, -⟩ := yields_forth (.refl hw) hs rfl hvs
    obtain ⟨heq, rfl⟩ := Prod.mk.inj hrun
    cases heq
    rw [hflat]
    refine ⟨vs, w₀, pairUp vs, ?_, Heap.pairs?_plain heven (length_of_run hvs), hhash, .same, _,
      (Beside.refl halong.beside.closed).extend (.newDict _ _) rfl rfl, rfl, fun hcoheres => ?_⟩
    · rwa [evalItems_plain]
    · rw [← Keyed.insertElems_congr (sameEntry_eq hcoheres hhash), Renaming.entry_same, List.map_id]
      exact .of_eq (entries_newDict _ _)
  · rw [htree] at h
    obtain ⟨us, w₀', hus, hmake⟩ := (yields_call hkeeps.now.2 rfl cs).mp h
    obtain ⟨ρ, vs, w₀, halong, hvs, hbears⟩ := lays_back hlays (.refl hw) hs rfl hkeeps hus
    -- The renaming is taken up again, so that the heap is an image.
    have hbeside := halong.beside.resumed
    have himage := halong.beside.image w₀.heap
    have hbears := hbears.moves (himage.moves (.refl _))
    set ρ' := ρ.resume w₀.heap w₀'.heap
    obtain ⟨ps', hps', hhash', hrun⟩ := (run_intoDict (length_of_run hus)).mp hmake
    obtain ⟨-, hnone⟩ | ⟨ps, qs, hps, hqs, hcondenses⟩ := hbears.pairs himage
    · rw [hps'] at hnone
      cases hnone
    · obtain rfl : ps' = qs := Option.some.inj (hps'.symm.trans hqs)
      have hhash : ∀ e ∈ ps, e.1.hashable = true := fun e he =>
        (Renaming.hashable_value _ e.1).symm.trans
          (hcondenses.forall_iff.mp hhash' _ (List.mem_map_of_mem he))
      obtain ⟨heq, rfl⟩ := Prod.mk.inj hrun
      cases heq
      refine ⟨vs, w₀, ps, hvs, hps, hhash, ρ', _, hbeside.extend (.newDict _ _) rfl rfl, rfl,
        fun hcoheres => ?_⟩
      have hfunctions := hbeside.functions
      have hkeys : ∀ e ∈ ps.map ρ'.entry, ∃ e' ∈ ps, e'.1 = e.1 := List.forall_mem_map.mpr
        fun e he => ⟨e, he, (value_of_hashable hfunctions (hhash e he)).symm⟩
      rw [← Keyed.insertElems_congr (sameEntry_eq hcoheres hhash), ← insertElems_entries hfunctions hhash]
      refine (List.Perm.of_eq (entries_newDict _ _)).trans ?_
      exact hcondenses.perm_insertElems (coherent_sameEntry hcoheres hhash) hkeys
        (List.forall_mem_nil _) .nil

theorem dict_forth {vs : List Value} {w₀ : World} {ps : List (Value × Value)}
    (hvs : Yields (evalItems (Bracket.dict.flat items) s) w vs w₀)
    (hps : w₀.heap.pairs? (Bracket.dict.flat items) vs = some ps) (hhash : ∀ e ∈ ps, e.1.hashable = true) :
    ∃ v w₁, Yields (·.eval (.ofExpr (Bracket.dict.desugar items)) s) w v w₁ := by
  obtain ⟨es, htree, hflat⟩ | ⟨cs, htree, hlays⟩ := Bracket.desugar_lays (b := .dict) items
  · rw [hflat] at hps
    rw [hflat, evalItems_plain] at hvs
    have heven := (Item.paired_plain es).mp (Heap.paired_of_pairs? hps)
    rw [Heap.pairs?_plain heven (length_of_run hvs)] at hps
    cases hps
    rw [htree]
    exact ⟨_, _, (yields_dict hkeeps.now.1 es).mpr ⟨heven, vs, w₀, hvs, hhash, rfl⟩⟩
  · obtain ⟨ρ, us, w₀', halong, hus, hbears⟩ :=
      lays_forth hlays (.refl hw) hs rfl hkeeps hvs ⟨_, ps, hps, hhash⟩
    have himage := halong.beside.image w₀.heap
    have hbears := hbears.moves (himage.moves (.refl _))
    obtain ⟨hnone, -⟩ | ⟨ps', qs, hps', hqs, hcondenses⟩ := hbears.pairs himage
    · rw [hps] at hnone
      cases hnone
    · obtain rfl : ps = ps' := Option.some.inj (hps.symm.trans hps')
      have hhash' : ∀ e ∈ qs, e.1.hashable = true := by
        refine hcondenses.forall_iff.mpr (List.forall_mem_map.mpr fun e he => ?_)
        exact (Renaming.hashable_value _ e.1).trans (hhash e he)
      rw [htree]
      exact ⟨_, _, (yields_call hkeeps.now.2 rfl cs).mpr
        ⟨us, w₀', hus, (run_intoDict (length_of_run hus)).mpr ⟨qs, hqs, hhash', rfl⟩⟩⟩

end

/-- **Dict literals.** Where the names of a dict literal stand for its builtins, its tree has a value if and
only if its elements, those of spread literals of the same kind among them, pair up between the spread ones,
have values when they are evaluated from left to right, the spread ones collections of key-value pairs, and
all keys can be keys. The value is a dict of all pairs, in which later pairs replace earlier ones with an
equal key, if among the keys equality is transitive and equal ones have one hash; the world is the one that
comes of evaluating the elements, with more objects in it.

These pairs are the ones that are written if the elements pair up as they are written, and those of each
spread literal of the same kind. -/
theorem dict_pairs (items : List Item) {w : World} {s : ScopeRef} (hw : w.heap.Closed)
    (hs : w.heap.HasScope s) (hkeeps : Keeps s w (Bracket.dict.flat items)) :
    ((∃ v w₁, Yields (·.eval (.ofExpr (Bracket.dict.desugar items)) s) w v w₁) ↔
      Item.Paired (Bracket.dict.flat items) ∧ ∃ vs w₀ ps,
        Yields (evalItems (Bracket.dict.flat items) s) w vs w₀ ∧
        w₀.heap.pairs? (Bracket.dict.flat items) vs = some ps ∧ ∀ e ∈ ps, e.1.hashable = true) ∧
    (∀ {v w₁ vs w₀ ps}, Yields (·.eval (.ofExpr (Bracket.dict.desugar items)) s) w v w₁ →
      Yields (evalItems (Bracket.dict.flat items) s) w vs w₀ →
      w₀.heap.pairs? (Bracket.dict.flat items) vs = some ps →
      ∃ ρ r, Beside ρ w₀ w₁ ∧ v = .dict r ∧ (Datum.Coheres (keyData w₀.heap ps) →
        (w₁.heap.entries r).Perm ((insertElems (equalKeys w₀.heap) [] ps).map ρ.entry))) ∧
    (Item.Paired items → (∀ es, .spreading (.tagged "dict" es) ∈ items → Even es.length) →
      Item.Paired (Bracket.dict.flat items) ∧
      ∀ (h : Heap) {vs}, vs.length = (Bracket.dict.flat items).length →
        h.pairs? (Bracket.dict.flat items) vs = h.asWritten? items vs) := by
  refine ⟨⟨?_, ?_⟩, fun {v w₁ vs w₀ ps} hv hvs hps => ?_, fun hpaired hspread => ⟨?_, ?_⟩⟩
  · rintro ⟨v, w₁, hv⟩
    obtain ⟨vs, w₀, ps, hvs, hps, hhash, -⟩ := dict_back hw hs hkeeps hv
    exact ⟨Heap.paired_of_pairs? hps, vs, w₀, ps, hvs, hps, hhash⟩
  · rintro ⟨-, vs, w₀, ps, hvs, hps, hhash⟩
    exact dict_forth hw hs hkeeps hvs hps hhash
  · obtain ⟨vs', w₀', ps', hvs', hps', -, hdict⟩ := dict_back hw hs hkeeps hv
    obtain ⟨rfl, rfl⟩ := hvs.unique (patient_evalItems _ s) hvs'
    obtain rfl := Option.some.inj (hps.symm.trans hps')
    exact hdict
  · exact Bracket.paired_flat [] [] .rfl hpaired hspread
  · exact fun h {vs} hlength => Heap.pairs?_flat hpaired hspread h vs hlength

def dictItems : List Item :=
  [.plain (.atom (.int 1)), .plain (.atom (.int 2)),
    .spreading (.tagged "dict" [.atom (.int 3), .atom (.int 4)]),
    .spreading (.tagged "tuple" [.tagged "tuple" [.atom (.int 1), .atom (.int 5)]])]

theorem keeps_dictItems : Keeps Heap.builtinScope .initial (Bracket.dict.flat dictItems) := by
  intro items' hprefix vs w₁ hvs
  have hrun : ∃ vs, Yields (evalItems items' Heap.builtinScope) .initial vs .initial := by
    obtain ⟨n, rfl⟩ : ∃ n, items' = (Bracket.dict.flat dictItems).take n :=
      ⟨_, List.prefix_iff_eq_take.mp hprefix⟩
    have hlength : (Bracket.dict.flat dictItems).length = 5 := rfl
    rcases n with _ | _ | _ | _ | _ | n
    · exact ⟨_, 4, by cbv⟩
    · exact ⟨_, 4, by cbv⟩
    · exact ⟨_, 4, by cbv⟩
    · exact ⟨_, 4, by cbv⟩
    · exact ⟨_, 4, by cbv⟩
    · rw [List.take_of_length_le (by omega)]
      exact ⟨_, 4, by cbv⟩
  obtain ⟨vs', hvs'⟩ := hrun
  obtain ⟨-, rfl⟩ := hvs'.unique (patient_evalItems _ _) hvs
  exact ⟨by cbv, by cbv⟩

theorem dict_pairs_replaced :
    ∃ r w₁, Yields (·.eval (.ofExpr (Bracket.dict.desugar dictItems)) Heap.builtinScope) .initial
        (.dict r) w₁ ∧
      (w₁.heap.entries r).Perm [(.int 1, .int 5), (.int 3, .int 4)] ∧
      Heap.initial.asWritten? dictItems [.int 1, .int 2, .int 3, .int 4, .tuple [.tuple [.int 1, .int 5]]] =
        some [(.int 1, .int 2), (.int 3, .int 4), (.int 1, .int 5)] := by
  have hvs : Yields (evalItems (Bracket.dict.flat dictItems) Heap.builtinScope) .initial
      [.int 1, .int 2, .int 3, .int 4, .tuple [.tuple [.int 1, .int 5]]] .initial := ⟨4, by cbv⟩
  have hps : Heap.initial.pairs? (Bracket.dict.flat dictItems)
      [.int 1, .int 2, .int 3, .int 4, .tuple [.tuple [.int 1, .int 5]]] =
        some [(.int 1, .int 2), (.int 3, .int 4), (.int 1, .int 5)] := by cbv
  have hspread : ∀ es, .spreading (.tagged "dict" es) ∈ dictItems → Even es.length := by
    simp [dictItems, Item.spreading, Item.plain, Expr.tagged]
  obtain ⟨hsucceeds, hdict, hwritten⟩ := dict_pairs dictItems (w := .initial) Heap.closed_initial
    Nat.one_pos keeps_dictItems
  obtain ⟨hpaired, hflat⟩ := hwritten (by decide) hspread
  obtain ⟨v, w₁, hv⟩ := hsucceeds.mpr ⟨hpaired, _, _, _, hvs, hps, by simp [Value.hashable]⟩
  obtain ⟨ρ, r, -, rfl, hentries⟩ := hdict hv hvs hps
  have hexact {i : Int64} (h : i.toInt.natAbs ≤ 2 ^ 53) : (Datum.int i).Exact :=
    Datum.exact_int (Decimal.isExact_of_small h)
  have hcoheres :
      Datum.Coheres (keyData Heap.initial [(.int 1, .int 2), (.int 3, .int 4), (.int 1, .int 5)]) :=
    Datum.coheres_of_exact (by decide) (by simp [keyData, Heap.datum, hexact])
  refine ⟨r, w₁, hv, (hentries hcoheres).trans (.of_eq ?_), (hflat _ rfl).symm.trans hps⟩
  have hreplaced : insertElems (equalKeys Heap.initial) []
      [(.int 1, .int 2), (.int 3, .int 4), (.int 1, .int 5)] =
        [(.int 1, .int 5), (.int 3, .int 4)] := by cbv
  change (insertElems (equalKeys Heap.initial) [] _).map ρ.entry = _
  rw [hreplaced]
  rfl

end EvalM
end EventTally
