import EventTally.Proofs.Heap.Extends
import EventTally.Proofs.Renaming.Closed

/-! # Images that are taken up again

Between two computations in an image, the greater heap may get objects of its own. Then the numbers of
the image are no longer the next ones, so for what follows the renaming is changed beyond the objects
that are there: new objects go to the end again. `Moves` says what the greater heap keeps meanwhile.
-/

namespace EventTally

section

variable {α : Type} {ρ ρ' ρ'' : Nat → Nat} {f f' : α → α} {limit : Nat}
  {old as as' as'' bs bs' bs'' : Array α}

/-- `as` has the elements of `bs`, changed by `f`, in the same order. -/
structure Injects (ρ : Nat → Nat) (f : α → α) (bs as : Array α) : Prop where
  copy : ∀ i b, bs[i]? = some b → as[ρ i]? = some (f b)
  mono : ∀ i j, i < j → j < bs.size → ρ i < ρ j

theorem Injects.lt (h : Injects ρ f bs as) {i : Nat} (hi : i < bs.size) : ρ i < as.size :=
  (Array.getElem?_eq_some_iff.mp (h.copy i bs[i] (Array.getElem?_eq_getElem hi))).1

theorem Injects.grows (h : Injects ρ f bs as) (hgrows : Grows as as') : Injects ρ f bs as' :=
  ⟨fun i b hb => hgrows _ _ (h.copy i b hb), h.mono⟩

theorem Embeds.injects (h : Embeds ρ f limit old bs as) (hρ : StrictMono ρ) : Injects ρ f bs as := by
  constructor
  · intro i b hb
    rw [h.copy, hb, Option.map_some]
  · exact fun i j hij _ => hρ hij

theorem Embeds.size_eq (h : Embeds ρ f limit old bs as) (hρ : ρ = id) : as.size = bs.size := by
  have hle (i : Nat) : as.size ≤ i ↔ bs.size ≤ i := by
    have hcopy : as[i]? = bs[i]?.map f := by
      rw [← h.copy i, hρ]
      rfl
    rw [← Array.getElem?_eq_none_iff, hcopy, Option.map_eq_none_iff, Array.getElem?_eq_none_iff]
  exact le_antisymm ((hle _).mpr le_rfl) ((hle _).mp le_rfl)

/-- The first `n` numbers are renamed as before, the others to the numbers from `m` on. -/
def resume (n m : Nat) (ρ : Nat → Nat) (i : Nat) : Nat := if i < n then ρ i else m + (i - n)

theorem resume_of_lt {n m i : Nat} (hi : i < n) : resume n m ρ i = ρ i := if_pos hi

theorem resume_of_le {n m i : Nat} (hi : n ≤ i) : resume n m ρ i = m + (i - n) :=
  if_neg (Nat.not_lt.mpr hi)

theorem resume_id (n : Nat) : resume n n id = id := by
  funext i
  unfold resume
  dsimp only [id]
  split <;> omega

theorem Injects.strictMono_resume (h : Injects ρ f bs as) :
    StrictMono (resume bs.size as.size ρ) := by
  intro i j hij
  by_cases hj : j < bs.size
  · rw [resume_of_lt hj, resume_of_lt (hij.trans hj)]
    exact h.mono i j hij hj
  · rw [resume_of_le (Nat.le_of_not_lt hj)]
    by_cases hi : i < bs.size
    · rw [resume_of_lt hi]
      exact (h.lt hi).trans_le (Nat.le_add_right _ _)
    · rw [resume_of_le (Nat.le_of_not_lt hi)]
      omega

theorem Injects.embeds (h : Injects ρ f bs as) (hf : ∀ b ∈ bs, f' b = f b) (limit : Nat) :
    Embeds (resume bs.size as.size ρ) f' limit as bs as := by
  constructor
  · intro i
    by_cases hi : i < bs.size
    · have hb := Array.getElem?_eq_getElem hi
      rw [resume_of_lt hi, hb, h.copy i _ hb, Option.map_some, hf _ (Array.getElem_mem hi)]
    · rw [resume_of_le (Nat.le_of_not_lt hi), Array.getElem?_eq_none (Nat.le_add_right _ _),
        Array.getElem?_eq_none (Nat.le_of_not_lt hi), Option.map_none]
  · intro j _
    rw [resume_of_le (Nat.le_add_right _ _), Nat.add_sub_cancel_left]
  · exact fun _ _ => rfl
  · exact le_rfl

/-- From one image to a later one: the elements keep their places, new ones come after what was there,
and what belongs to no image stays. -/
structure Moves (ρ ρ' : Nat → Nat) (bs as bs' as' : Array α) : Prop where
  size : bs.size ≤ bs'.size
  size' : as.size ≤ as'.size
  agree : ∀ i < bs.size, ρ' i = ρ i
  fresh : ∀ i, bs.size ≤ i → i < bs'.size → as.size ≤ ρ' i
  spare : ∀ k < as.size, (∀ i < bs.size, ρ i ≠ k) → as'[k]? = as[k]?

theorem Moves.refl (ρ : Nat → Nat) (bs as : Array α) : Moves ρ ρ bs as bs as :=
  ⟨le_rfl, le_rfl, fun _ _ => rfl, fun _ hle hlt => absurd hlt (Nat.not_lt.mpr hle), fun _ _ _ => rfl⟩

theorem Moves.of_grows (ρ : Nat → Nat) (bs : Array α) (hgrows : Grows as as') :
    Moves ρ ρ bs as bs as' := by
  refine ⟨le_rfl, hgrows.size_le, fun _ _ => rfl, fun _ hle hlt => absurd hlt (Nat.not_lt.mpr hle), ?_⟩
  intro k hk _
  rw [Array.getElem?_eq_getElem hk, hgrows k _ (Array.getElem?_eq_getElem hk)]

theorem Moves.kept (h : Moves ρ ρ' bs as bs' as') {k : Nat} (hk : k < as.size)
    (hspare : ∀ i < bs.size, ρ i ≠ k) : (∀ i < bs'.size, ρ' i ≠ k) ∧ as'[k]? = as[k]? := by
  refine ⟨fun i hi => ?_, h.spare k hk hspare⟩
  by_cases hold : i < bs.size
  · rw [h.agree i hold]
    exact hspare i hold
  · exact (hk.trans_le (h.fresh i (Nat.le_of_not_lt hold) hi)).ne'

theorem Moves.trans (h : Moves ρ ρ' bs as bs' as') (h' : Moves ρ' ρ'' bs' as' bs'' as'') :
    Moves ρ ρ'' bs as bs'' as'' := by
  constructor
  · exact h.size.trans h'.size
  · exact h.size'.trans h'.size'
  · exact fun i hi => (h'.agree i (hi.trans_le h.size)).trans (h.agree i hi)
  · intro i hle hlt
    by_cases hi : i < bs'.size
    · rw [h'.agree i hi]
      exact h.fresh i hle hi
    · exact h.size'.trans (h'.fresh i (Nat.le_of_not_lt hi) hlt)
  · intro k hk hspare
    obtain ⟨hspare', hkept⟩ := h.kept hk hspare
    rw [h'.spare k (hk.trans_le h.size') hspare', hkept]

theorem Embeds.moves (h : Embeds (resume bs.size as.size ρ) f limit as bs' as')
    (hsize : bs.size ≤ bs'.size) : Moves ρ (resume bs.size as.size ρ) bs as bs' as' := by
  constructor
  · exact hsize
  · exact h.grows
  · exact fun i hi => resume_of_lt hi
  · intro i hle _
    rw [resume_of_le hle]
    exact Nat.le_add_right _ _
  · intro k hk hspare
    refine h.rest k fun i => ?_
    by_cases hi : i < bs.size
    · rw [resume_of_lt hi]
      exact hspare i hi
    · rw [resume_of_le (Nat.le_of_not_lt hi)]
      exact (hk.trans_le (Nat.le_add_right _ _)).ne'

end

namespace Renaming

/-- The objects of `h` keep their numbers, and new ones go to the end of `h'`. -/
def resume (ρ : Renaming) (h h' : Heap) : Renaming where
  lists := EventTally.resume h.lists.size h'.lists.size ρ.lists
  dicts := EventTally.resume h.dicts.size h'.dicts.size ρ.dicts
  sets := EventTally.resume h.sets.size h'.sets.size ρ.sets
  closures := EventTally.resume h.closures.size h'.closures.size ρ.closures
  layers := EventTally.resume h.layers.size h'.layers.size ρ.layers

theorem agree_resume (ρ : Renaming) (h h' : Heap) : Agree ρ (ρ.resume h h') h :=
  ⟨fun _ hi => resume_of_lt hi, fun _ hi => resume_of_lt hi, fun _ hi => resume_of_lt hi,
    fun _ hi => resume_of_lt hi, fun _ hi => resume_of_lt hi⟩

end Renaming

namespace Heap

variable {ρ ρ' ρ'' : Renaming} {h h' h₁ h₁' h₂ h₂' final old : Heap}

/-- `h'` has the objects of `h`, with what they hold renamed. -/
structure Copies (ρ : Renaming) (h h' : Heap) : Prop where
  builtins : ρ.scope builtinScope = builtinScope
  lists : Injects ρ.lists ρ.cell h.lists h'.lists
  dicts : Injects ρ.dicts (List.map ρ.entry) h.dicts h'.dicts
  sets : Injects ρ.sets (List.map ρ.value) h.sets h'.sets
  closures : Injects ρ.closures ρ.function h.closures h'.closures
  layers : Injects ρ.layers ρ.layer h.layers h'.layers

theorem Image.copies (himage : Image ρ final old h h') : Copies ρ h h' :=
  ⟨himage.ordered.builtins, himage.lists.injects himage.ordered.lists,
    himage.dicts.injects himage.ordered.dicts, himage.sets.injects himage.ordered.sets,
    himage.closures.injects himage.ordered.closures, himage.layers.injects himage.ordered.layers⟩

theorem Copies.extend (hcopies : Copies ρ h h') (hext : h'.Extends h₁') : Copies ρ h h₁' :=
  ⟨hcopies.builtins, hcopies.lists.grows hext.lists, hcopies.dicts.grows hext.dicts,
    hcopies.sets.grows hext.sets, hcopies.closures.grows hext.closures,
    hcopies.layers.grows hext.layers⟩

theorem Copies.image (hcopies : Copies ρ h h') (hclosed : h.Closed)
    (hrank : ∀ d : Datum, h'.rank (d.rename (ρ.resume h h').closures) = h.rank d) (final : Heap) :
    Image (ρ.resume h h') final h' h h' := by
  have hagree := ρ.agree_resume h h'
  constructor
  · constructor
    · exact hcopies.lists.strictMono_resume
    · exact hcopies.dicts.strictMono_resume
    · exact hcopies.sets.strictMono_resume
    · exact hcopies.closures.strictMono_resume
    · exact hcopies.layers.strictMono_resume
    · exact (hagree.scope hclosed.builtins).trans hcopies.builtins
  · exact hcopies.lists.embeds (fun c hc => hagree.cell hclosed hc) _
  · exact hcopies.dicts.embeds (fun es hes => hagree.entries hclosed hes) _
  · exact hcopies.sets.embeds (fun vs hvs => hagree.values (hclosed.sets vs hvs)) _
  · exact hcopies.closures.embeds (fun c hc => hagree.function hclosed hc) _
  · exact hcopies.layers.embeds (fun l hl => hagree.layer hclosed hl) _
  · rfl
  · exact fun d _ => hrank d

theorem copies_same (h : Heap) : Copies .same h h := by
  have hinjects {α : Type} {f : α → α} {as : Array α} (hf : ∀ a ∈ as, f a = a) : Injects id f as as := by
    refine ⟨fun i a ha => ?_, fun i j hij _ => hij⟩
    rw [id, ha, hf a (Array.mem_of_getElem? ha)]
  constructor
  · rfl
  · exact hinjects fun c _ => Renaming.cell_same c
  · refine hinjects fun es _ => ?_
    rw [Renaming.entry_same, List.map_id]
  · refine hinjects fun vs _ => ?_
    rw [funext Renaming.value_same]
    exact List.map_id vs
  · exact hinjects fun c _ => Renaming.function_same c
  · exact hinjects fun l _ => Renaming.layer_same l

/-- From one image of a heap to a later one. -/
structure Moves (ρ ρ' : Renaming) (h h' h₁ h₁' : Heap) : Prop where
  lists : EventTally.Moves ρ.lists ρ'.lists h.lists h'.lists h₁.lists h₁'.lists
  dicts : EventTally.Moves ρ.dicts ρ'.dicts h.dicts h'.dicts h₁.dicts h₁'.dicts
  sets : EventTally.Moves ρ.sets ρ'.sets h.sets h'.sets h₁.sets h₁'.sets
  closures : EventTally.Moves ρ.closures ρ'.closures h.closures h'.closures h₁.closures h₁'.closures
  layers : EventTally.Moves ρ.layers ρ'.layers h.layers h'.layers h₁.layers h₁'.layers
  rank : h.rank = h₁.rank

namespace Moves

theorem refl (ρ : Renaming) (h h' : Heap) : Moves ρ ρ h h' h h' :=
  ⟨.refl _ _ _, .refl _ _ _, .refl _ _ _, .refl _ _ _, .refl _ _ _, rfl⟩

theorem of_extends (ρ : Renaming) (h : Heap) (hext : h'.Extends h₁') : Moves ρ ρ h h' h h₁' :=
  ⟨.of_grows _ _ hext.lists, .of_grows _ _ hext.dicts, .of_grows _ _ hext.sets,
    .of_grows _ _ hext.closures, .of_grows _ _ hext.layers, rfl⟩

theorem trans (h₀ : Moves ρ ρ' h h' h₁ h₁') (h₀' : Moves ρ' ρ'' h₁ h₁' h₂ h₂') :
    Moves ρ ρ'' h h' h₂ h₂' :=
  ⟨h₀.lists.trans h₀'.lists, h₀.dicts.trans h₀'.dicts, h₀.sets.trans h₀'.sets,
    h₀.closures.trans h₀'.closures, h₀.layers.trans h₀'.layers,
    h₀.rank.trans h₀'.rank⟩

theorem within (hmoves : Moves ρ ρ' h h' h₁ h₁') : h.Within h₁ :=
  ⟨hmoves.lists.size, hmoves.dicts.size, hmoves.sets.size, hmoves.closures.size, hmoves.layers.size,
    hmoves.rank⟩

theorem agree (hmoves : Moves ρ ρ' h h' h₁ h₁') : Renaming.Agree ρ ρ' h :=
  ⟨hmoves.lists.agree, hmoves.dicts.agree, hmoves.sets.agree, hmoves.closures.agree,
    hmoves.layers.agree⟩

end Moves

theorem Image.moves (himage : Image (ρ.resume h h') final h' h₁ h₁') (hwithin : h.Within h₁) :
    Moves ρ (ρ.resume h h') h h' h₁ h₁' :=
  ⟨himage.lists.moves hwithin.lists, himage.dicts.moves hwithin.dicts, himage.sets.moves hwithin.sets,
    himage.closures.moves hwithin.closures, himage.layers.moves hwithin.layers, hwithin.rank⟩

end Heap

end EventTally
