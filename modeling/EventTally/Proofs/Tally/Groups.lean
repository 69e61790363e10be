import EventTally.Proofs.Tally.Formulas

/-! # A grouped tally is many plain ones

What a grouped tally keeps for a group is what the tally without groups keeps in which only the values
of the group count. The look-up goes by hash, so this is about groups whose equals among the events
have their hash.
-/

namespace EventTally

namespace Tally

variable {t : Tally} {p : Pipeline} {Ready : Bench → Prop} {G : Datum → Prop} {b b' : Bench}

theorem replay_groups_eq_plain (hpure : t.IsPure p Ready) (hgrouped : t.grouped = true)
    (hb : Ready b) {evs : List Event} (hG : Pipeline.EqualOn G)
    (hmem : ∀ ev ∈ evs, ∀ k, p.Occurs ev k → G k) {acc : Value}
    (hrun : (t.replay evs).run b = (.ok acc, b')) :
    ∃ groups, b'.world.heap.datum acc = .dict groups ∧
      ∀ g, G g → g.isNull = false → (∀ ev ∈ evs, p.HashesAs g ev) →
        ((∃ a, Keyed.find? g.sameKey groups = some a) ↔ ∃ ev ∈ evs, p.Touches g ev) ∧
        ∀ a, Keyed.find? g.sameKey groups = some a →
          (p.only g).run evs = some a ∧
          ∀ {t' : Tally} {Ready' : Bench → Prop} {b₁ : Bench}, t'.IsPure (p.only g) Ready' →
            t'.grouped = false → Ready' b₁ → ∃ acc' b₂,
              (t'.replay evs).run b₁ = (.ok acc', b₂) ∧ b₂.world.heap.datum acc' = a := by
  have hyields := hpure.yields_replay_groups hgrouped hb evs
  cases hfold : evs.foldlM p.grouped [] with
  | none =>
    rw [hfold] at hyields
    obtain ⟨fault, b₁, hfault⟩ := hyields
    rw [hrun] at hfault
    cases hfault
  | some groups =>
    rw [hfold] at hyields
    obtain ⟨acc', b₁, hok, -, -, hholds⟩ := hyields
    cases hrun.symm.trans hok
    refine ⟨groups, hholds.datum, fun g hg hgnull hhash => ?_⟩
    obtain ⟨hcontains, hrunOnly⟩ := Pipeline.runGrouped_eq_run hG hmem hfold hg hgnull hhash
    refine ⟨hcontains, fun a ha => ⟨hrunOnly a ha, fun hpure' hplain' hb' => ?_⟩⟩
    have hyields' := hpure'.yields_replay hplain' hb' evs
    rw [hrunOnly a ha] at hyields'
    obtain ⟨acc', b₂, hrun', -, -, hshows⟩ := hyields'
    exact ⟨acc', b₂, hrun', hshows.datum⟩

theorem replay_groups_eq_plain_kinds : ∃ acc b' groups,
    ((Formulas.kinds.tally "kinds" true Heap.builtinScope).replay Formulas.kindEvents).run
      { scope := none, world := .initial } = (.ok acc, b') ∧
    b'.world.heap.datum acc = .dict groups ∧
    Keyed.find? (Datum.bool true).sameKey groups = some (.int 1) ∧
    ∃ acc' b₂, (((Formulas.kinds.only (.bool true)).tally "kinds" false Heap.builtinScope).replay
        Formulas.kindEvents).run { scope := none, world := .initial } = (.ok acc', b₂) ∧
      b₂.world.heap.datum acc' = .int 1 := by
  have hpure := Formulas.kinds.isPure "kinds" true Heap.builtinScope
  have hpure' := (Formulas.kinds.only (.bool true)).isPure "kinds" false Heap.builtinScope
  rw [Formulas.pipeline_only] at hpure'
  have hready : Formulas.Ready Heap.builtinScope { scope := none, world := .initial } := EvalM.visible_initial
  have hyields := hpure.yields_replay_groups rfl hready Formulas.kindEvents
  have hfold : (Formulas.kindEvents.foldlM Formulas.kinds.pipeline.grouped []).isSome = true := by cbv
  have hone : (Formulas.kinds.pipeline.only (.bool true)).run Formulas.kindEvents = some (.int 1) := by
    cbv
  obtain ⟨groups₀, hgroups₀⟩ := Option.isSome_iff_exists.mp hfold
  rw [hgroups₀] at hyields
  obtain ⟨acc, b', hrun, -⟩ := hyields
  obtain ⟨groups, hdatum, hgroups⟩ := replay_groups_eq_plain hpure rfl hready
    Formulas.equalOn_isBool (fun _ _ _ => Formulas.isBool_of_occurs) hrun
  obtain ⟨hcontains, hplain⟩ := hgroups (.bool true) ⟨true, rfl⟩ rfl fun ev _ =>
    Formulas.hashesAs true ev
  have htouched : ∃ ev ∈ Formulas.kindEvents, Formulas.kinds.pipeline.Touches (.bool true) ev := by
    refine ⟨_, List.mem_cons_self, .bool true, ⟨rfl, ?_⟩, (Formulas.equal_bool true true).mpr rfl⟩
    refine ⟨.dict [(.sym "__class__", .str "m"), (.sym "kind", .str "a")], .inr ?_, ?_⟩
    · cbv
    · cbv
  obtain ⟨a, ha⟩ := hcontains.mpr htouched
  obtain ⟨honly, hreplay⟩ := hplain a ha
  cases hone.symm.trans honly
  exact ⟨acc, b', groups, hrun, hdatum, ha, hreplay hpure' rfl hready⟩

end Tally

end EventTally
