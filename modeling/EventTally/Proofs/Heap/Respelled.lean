import EventTally.Proofs.Eval.Recoding
import EventTally.Proofs.Heap.Ending

/-! # Code in another spelling

A value in the code of a function may be written out, a list as a form. If the value ends, the function
is seen as before, and so is every value of a heap in which functions are spelled in another way.
-/

namespace EventTally

/-- `c'` is `c` in another spelling: some values that end are written out. -/
structure Code.Respells (h : Heap) (c c' : Code) : Prop where
  refs : ∀ r ∈ c'.refs h, r ∈ c.refs h
  ends : ∀ r ∈ c.refs h, r ∈ c'.refs h ∨ h.ends (h.objectCount + 1) r = true
  view : ∀ m, h.objectCount + 1 ≤ m → c'.view h (h.lens m) = c.view h (h.lens m)

namespace Code

variable {h h' : Heap}

theorem Respells.refl (h : Heap) (c : Code) : Respells h c c :=
  ⟨fun _ hr => hr, fun _ hr => .inl hr, fun _ _ => rfl⟩

theorem respells_form {f : Code → Code} {cs : List Code} (hcs : ∀ c ∈ cs, Respells h c (f c)) :
    Respells h (.form cs) (.form (cs.map f)) := by
  constructor
  · intro r hr
    rw [refs, refsAll_eq, List.mem_flatMap] at hr ⊢
    obtain ⟨c', hc', hr⟩ := hr
    obtain ⟨c, hc, rfl⟩ := List.mem_map.mp hc'
    exact ⟨c, hc, (hcs c hc).refs r hr⟩
  · intro r hr
    rw [refs, refsAll_eq, List.mem_flatMap] at hr ⊢
    obtain ⟨c, hc, hr⟩ := hr
    obtain hr | hends := (hcs c hc).ends r hr
    · exact .inl ⟨f c, List.mem_map_of_mem hc, hr⟩
    · exact .inr hends
  · intro m hm
    rw [view, view, views_eq_map, views_eq_map, List.map_map]
    exact congrArg Datum.list (List.map_congr_left fun c hc => (hcs c hc).view m hm)

mutual

theorem refs_of_slots (hslot : h'.slot = h.slot) (c : Code) : c.refs h' = c.refs h := by
  match c with
  | .value v => rfl
  | .form cs => rw [refs, refs, refsAll_of_slots hslot cs]
  | .slot r i => rw [refs, refs, hslot]

theorem refsAll_of_slots (hslot : h'.slot = h.slot) (cs : List Code) :
    refsAll h' cs = refsAll h cs := by
  match cs with
  | [] => rfl
  | c :: cs => rw [refsAll, refsAll, refs_of_slots hslot c, refsAll_of_slots hslot cs]

end

mutual

theorem view_of_slots (hslot : h'.slot = h.slot) (lens : Lens) (c : Code) :
    c.view h' lens = c.view h lens := by
  match c with
  | .value v => rfl
  | .form cs => rw [view, view, views_of_slots hslot lens cs]
  | .slot r i => rw [view, view, hslot]

theorem views_of_slots (hslot : h'.slot = h.slot) (lens : Lens) (cs : List Code) :
    views h' lens cs = views h lens cs := by
  match cs with
  | [] => rfl
  | c :: cs => rw [views, views, view_of_slots hslot lens c, views_of_slots hslot lens cs]

end

end Code

namespace Heap

/-- The second heap differs from the first in the spelling of its functions. -/
structure Respelled (f : Code → Code) (h h' : Heap) : Prop extends SameObjects h h' where
  closure : ∀ r, h'.closure r = (h.closure r).recode f
  pattern : ∀ r, Code.Respells h (h.closure r).pattern (f (h.closure r).pattern)
  body : ∀ r, Code.Respells h (h.closure r).body (f (h.closure r).body)

namespace Respelled

variable {f : Code → Code} {h h' : Heap} {n m : Nat} {r : Ref} (hspell : Respelled f h h')
include hspell

theorem behind_closure (r : ClosureRef) : h'.behind (.closure r) =
    (f (h.closure r).pattern).refs h ++ (f (h.closure r).body).refs h := by
  rw [behind, hspell.closure]
  dsimp only [Closure.recode]
  rw [Code.refs_of_slots hspell.slot, Code.refs_of_slots hspell.slot]

theorem behind_subset (r : Ref) : ∀ r' ∈ h'.behind r, r' ∈ h.behind r := by
  cases r with
  | list r =>
    rw [behind, behind, hspell.elems]
    exact fun _ hr => hr
  | dict r =>
    rw [behind, behind, hspell.entries]
    exact fun _ hr => hr
  | set r =>
    rw [behind, behind, hspell.members]
    exact fun _ hr => hr
  | closure r =>
    rw [hspell.behind_closure]
    intro r' hr'
    rcases List.mem_append.mp hr' with hr' | hr'
    · exact List.mem_append_left _ ((hspell.pattern r).refs r' hr')
    · exact List.mem_append_right _ ((hspell.body r).refs r' hr')

theorem behind_or_ends (r : Ref) :
    ∀ r' ∈ h.behind r, r' ∈ h'.behind r ∨ h.ends (h.objectCount + 1) r' = true := by
  cases r with
  | list r =>
    rw [behind, behind, hspell.elems]
    exact fun _ => .inl
  | dict r =>
    rw [behind, behind, hspell.entries]
    exact fun _ => .inl
  | set r =>
    rw [behind, behind, hspell.members]
    exact fun _ => .inl
  | closure r =>
    rw [hspell.behind_closure]
    intro r' hr'
    rcases List.mem_append.mp hr' with hr' | hr'
    · exact ((hspell.pattern r).ends r' hr').imp_left (List.mem_append_left _)
    · exact ((hspell.body r).ends r' hr').imp_left (List.mem_append_right _)

theorem ends (hr : h.ends n r = true) : h'.ends n r = true := by
  induction n generalizing r with
  | zero => cases hr
  | succ n ih =>
    rw [ends_succ_iff] at hr ⊢
    exact fun r' hr' => ih (hr r' (hspell.behind_subset r r' hr'))

theorem ends_back (hr : h'.ends n r = true) : h.ends (n + (h.objectCount + 1)) r = true := by
  induction n generalizing r with
  | zero => cases hr
  | succ n ih =>
    rw [Nat.succ_add]
    rw [ends_succ_iff] at hr ⊢
    intro r' hr'
    obtain hr' | hends := hspell.behind_or_ends r r' hr'
    · exact ih (hr r' hr')
    · exact ends_mono (Nat.le_add_left _ _) hends

theorem see (hr : h'.ends n r = true) (hm : n + (h.objectCount + 1) ≤ m) :
    (h'.lens m).see r = (h.lens m).see r := by
  induction n generalizing m r with
  | zero => cases hr
  | succ n ih =>
    obtain ⟨m, rfl⟩ : ∃ k, m = k + 1 := ⟨m - 1, by omega⟩
    have hbehind : ∀ r' ∈ h'.behind r, (h'.lens m).see r' = (h.lens m).see r' :=
      fun r' hr' => ih (ends_succ_iff.mp hr r' hr') (by omega)
    cases r with
    | list r =>
      rw [behind, Value.refsAll_eq] at hbehind
      change Datum.list ((h'.elems r).map _) = Datum.list ((h.elems r).map _)
      rw [← hspell.elems]
      refine congrArg Datum.list (List.map_congr_left fun v hv => Value.view_congr fun r' hr' => ?_)
      exact hbehind r' (List.mem_flatMap_of_mem hv hr')
    | dict r =>
      rw [behind] at hbehind
      change Datum.dict ((h'.entries r).map _) = Datum.dict ((h.entries r).map _)
      rw [← hspell.entries]
      refine congrArg Datum.dict (List.map_congr_left fun e he => Prod.ext ?_ ?_)
      · refine Value.view_congr fun r' hr' => hbehind r' ?_
        exact List.mem_flatMap_of_mem he (List.mem_append_left _ hr')
      · refine Value.view_congr fun r' hr' => hbehind r' ?_
        exact List.mem_flatMap_of_mem he (List.mem_append_right _ hr')
    | set r =>
      rw [behind, Value.refsAll_eq] at hbehind
      change Datum.set ((h'.members r).map _) = Datum.set ((h.members r).map _)
      rw [← hspell.members]
      refine congrArg Datum.set (List.map_congr_left fun v hv => Value.view_congr fun r' hr' => ?_)
      exact hbehind r' (List.mem_flatMap_of_mem hv hr')
    | closure r =>
      have hview {c : Code} (hc : Code.Respells h c (f c))
          (hrefs : ∀ r' ∈ (f c).refs h, (h'.lens m).see r' = (h.lens m).see r') :
          (f c).view h' (h'.lens m) = c.view h (h.lens m) := by
        rw [Code.view_of_slots hspell.slot, Code.view_congr h hrefs]
        exact hc.view m (by omega)
      rw [hspell.behind_closure, List.forall_mem_append] at hbehind
      have hpattern := hview (hspell.pattern r) hbehind.1
      have hbody := hview (hspell.body r) hbehind.2
      change Datum.closure r.id (h'.closure r).name ((h'.closure r).pattern.view h' (h'.lens m))
        ((h'.closure r).body.view h' (h'.lens m)) = _
      rw [hspell.closure]
      dsimp only [Closure.recode]
      rw [hpattern, hbody]
      rfl

theorem datum : h'.datum = h.datum := by
  funext v
  by_cases hends : ∃ n, h'.Ends n v.refs
  · obtain ⟨n, hn⟩ := hends
    have hback : h.Ends (n + (h.objectCount + 1)) v.refs := fun r hr => hspell.ends_back (hn r hr)
    rw [datum_of_ends hn (Nat.le_add_right n (h.objectCount + 1)), datum_of_ends hback le_rfl]
    exact Value.view_congr fun r hr => hspell.see (hn r hr) le_rfl
  · have hback : ¬ ∃ n, h.Ends n v.refs := by
      rintro ⟨n, hn⟩
      exact hends ⟨n, fun r hr => hspell.ends (hn r hr)⟩
    rw [datum_eq_view, datum_eq_view, viewDepth_of_not_ends hends, viewDepth_of_not_ends hback]
    rfl

theorem isFinite : h'.isFinite = h.isFinite := by
  funext v
  refine Bool.eq_iff_iff.mpr ?_
  rw [isFinite_iff, isFinite_iff]
  exact ⟨fun ⟨n, hn⟩ => ⟨_, fun r hr => hspell.ends_back (hn r hr)⟩,
    fun ⟨n, hn⟩ => ⟨n, fun r hr => hspell.ends (hn r hr)⟩⟩

theorem datum? : h'.datum? = h.datum? := by
  funext v
  rw [Heap.datum?, Heap.datum?, hspell.isFinite, hspell.datum]

end Respelled

end Heap

end EventTally
