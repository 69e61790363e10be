import EventTally.Eval.Lazy
import EventTally.Eval.Strict
import EventTally.Proofs.Computation
import EventTally.Proofs.Heap.Ending
import EventTally.Proofs.Renaming.Datum
import EventTally.Proofs.Renaming.Image

/-! # Reading images of heaps

A value and its image are seen as the same datum but for the identities of functions. So every operation
on values has the same result on the image, renamed, and fails there if it fails.
-/

namespace EventTally

/-- Both succeed with results that `R` relates, or both fail with faults that `E` relates. -/
def Matched {α β ε ε' : Type} (R : α → β → Prop) (E : ε → ε' → Prop) :
    Except ε α → Except ε' β → Prop
  | .ok a, .ok b => R a b
  | .error e, .error e' => E e e'
  | _, _ => False

theorem Matched.imp {α β ε ε' : Type} {R R' : α → β → Prop} {E E' : ε → ε' → Prop} {x : Except ε α}
    {y : Except ε' β} (h : Matched R E x y) (hR : ∀ a b, x = .ok a → R a b → R' a b)
    (hE : ∀ e e', E e e' → E' e e') : Matched R' E' x y := by
  cases x with
  | ok a =>
    cases y with
    | ok b => exact hR a b rfl h
    | error e => exact h
  | error e =>
    cases y with
    | ok b => exact h
    | error e' => exact hE e e' h

theorem Matched.mono {α β ε ε' : Type} {R R' : α → β → Prop} {E : ε → ε' → Prop} {x : Except ε α}
    {y : Except ε' β} (h : Matched R E x y) (hR : ∀ a b, R a b → R' a b) : Matched R' E x y :=
  h.imp (fun a b _ => hR a b) fun _ _ => id

/-- The same reason, but for the identities of functions in a key. -/
inductive Reason.Alike (κ : Nat → Nat) : Reason → Reason → Prop
  | same (r : Reason) : Alike κ r r
  | key (d : Datum) : Alike κ (.noSuchKey d) (.noSuchKey (d.rename κ))

/-- Both succeed, the second with the image of the first result, or both fail for the same reason. -/
abbrev Parallel {α β : Type} (κ : Nat → Nat) (g : α → β) (x : Except Reason α) (y : Except Reason β) :
    Prop :=
  Matched (fun a b => b = g a) (Reason.Alike κ) x y

theorem Parallel.of_eq {α β : Type} {κ : Nat → Nat} {g : α → β} {x : Except Reason α}
    {y : Except Reason β} (h : y = x.map g) : Parallel κ g x y := by
  rw [h]
  cases x with
  | ok a => rfl
  | error r => exact .same r

variable {ρ : Renaming} {lens lens' : Lens}

mutual

theorem Renaming.view_value (hsee : ∀ r, lens'.see (ρ.ref r) = (lens.see r).rename ρ.closures)
    (v : Value) : (ρ.value v).view lens' = (v.view lens).rename ρ.closures := by
  match v with
  | .atom a => rfl
  | .builtin b => rfl
  | .tuple vs => exact congrArg Datum.tuple (Renaming.views_values hsee vs)
  | .list r => exact hsee (.list r)
  | .dict r => exact hsee (.dict r)
  | .set r => exact hsee (.set r)
  | .closure r => exact hsee (.closure r)

theorem Renaming.views_values (hsee : ∀ r, lens'.see (ρ.ref r) = (lens.see r).rename ρ.closures)
    (vs : List Value) :
    Value.views lens' (ρ.values vs) = Datum.renameAll ρ.closures (Value.views lens vs) := by
  match vs with
  | [] => rfl
  | v :: vs =>
    rw [Renaming.values, Value.views, Value.views, Datum.renameAll, Renaming.view_value hsee v,
      Renaming.views_values hsee vs]

end

mutual

theorem Value.rename_view {κ : Nat → Nat} (hsee : ∀ r, (lens.see r).rename κ = lens.see r) (v : Value) :
    (v.view lens).rename κ = v.view lens := by
  match v with
  | .atom a => rfl
  | .builtin b => rfl
  | .tuple vs => exact congrArg Datum.tuple (Value.renameAll_views hsee vs)
  | .list r => exact hsee (.list r)
  | .dict r => exact hsee (.dict r)
  | .set r => exact hsee (.set r)
  | .closure r => exact hsee (.closure r)

theorem Value.renameAll_views {κ : Nat → Nat} (hsee : ∀ r, (lens.see r).rename κ = lens.see r)
    (vs : List Value) : Datum.renameAll κ (Value.views lens vs) = Value.views lens vs := by
  match vs with
  | [] => rfl
  | v :: vs =>
    rw [Value.views, Datum.renameAll, Value.rename_view hsee v, Value.renameAll_views hsee vs]

end

theorem Renaming.key_value (v : Value) : (ρ.value v).key = v.key.rename ρ.closures := by
  refine Renaming.view_value (fun r => ?_) v
  cases r <;> rfl

namespace Heap.Image

variable {final old h h' : Heap}

mutual

theorem view_code (himage : Image ρ final old h h')
    (hsee : ∀ r, lens'.see (ρ.ref r) = (lens.see r).rename ρ.closures) (c : Code) :
    (ρ.code c).view h' lens' = (c.view h lens).rename ρ.closures := by
  match c with
  | .value v => exact Renaming.view_value hsee v
  | .form cs => exact congrArg Datum.list (view_codes himage hsee cs)
  | .slot r i =>
    rw [Renaming.code, Code.view, himage.slot]
    exact Renaming.view_value hsee _

theorem view_codes (himage : Image ρ final old h h')
    (hsee : ∀ r, lens'.see (ρ.ref r) = (lens.see r).rename ρ.closures) (cs : List Code) :
    Code.views h' lens' (ρ.codes cs) = Datum.renameAll ρ.closures (Code.views h lens cs) := by
  match cs with
  | [] => rfl
  | c :: cs =>
    rw [Renaming.codes, Code.views, Code.views, Datum.renameAll, view_code himage hsee c,
      view_codes himage hsee cs]

end

mutual

theorem refs_code (himage : Image ρ final old h h') (c : Code) :
    (ρ.code c).refs h' = (c.refs h).map ρ.ref := by
  match c with
  | .value v => exact Renaming.refs_value v
  | .form cs => exact refs_codes himage cs
  | .slot r i =>
    rw [Renaming.code, Code.refs, himage.slot]
    exact Renaming.refs_value _

theorem refs_codes (himage : Image ρ final old h h') (cs : List Code) :
    Code.refsAll h' (ρ.codes cs) = (Code.refsAll h cs).map ρ.ref := by
  match cs with
  | [] => rfl
  | c :: cs =>
    rw [Renaming.codes, Code.refsAll, Code.refsAll, refs_code himage c, refs_codes himage cs,
      List.map_append]

end

variable (himage : Image ρ final old h h')
include himage

theorem see_lens (n : Nat) (r : Ref) :
    (h'.lens n).see (ρ.ref r) = ((h.lens n).see r).rename ρ.closures := by
  induction n generalizing r with
  | zero => cases r <;> rfl
  | succ n ih =>
    cases r with
    | list r =>
      refine congrArg Datum.list ?_
      rw [himage.elems, List.map_map, Datum.renameAll_eq_map, List.map_map]
      exact List.map_congr_left fun v _ => Renaming.view_value ih v
    | dict r =>
      refine congrArg Datum.dict ?_
      rw [himage.entries, List.map_map, Datum.renameEntries_eq_map, List.map_map]
      exact List.map_congr_left fun e _ =>
        Prod.ext (Renaming.view_value ih e.1) (Renaming.view_value ih e.2)
    | set r =>
      refine congrArg Datum.set ?_
      rw [himage.members, List.map_map, Datum.renameAll_eq_map, List.map_map]
      exact List.map_congr_left fun v _ => Renaming.view_value ih v
    | closure r =>
      unfold Lens.see Renaming.ref lens
      dsimp only
      rw [himage.closure, Datum.rename]
      exact congrArg₂ (Datum.closure _ _) (himage.view_code ih _) (himage.view_code ih _)

theorem place (k : Value) : h'.place (ρ.value k) = h.place k := by
  have hsee (r : Ref) : h'.keyLens.see (ρ.ref r) = (h.keyLens.see r).rename ρ.closures := by
    cases r with
    | closure r =>
      have hlt : (ρ.closure r).id < h'.closures.size ↔ r.id < h.closures.size := by
        have hcopy := congrArg Option.isSome (himage.closures.copy r.id)
        rw [Option.isSome_map, Bool.eq_iff_iff] at hcopy
        simpa [Renaming.closure] using hcopy
      change (if (ρ.closure r).id < h'.closures.size then _ else _) =
        Datum.rename ρ.closures (if r.id < h.closures.size then _ else _)
      rw [if_congr hlt rfl rfl]
      split <;> rfl
    | _ => rfl
  have hbelow : (k.view h.keyLens).Below (max h.closures.size final.closures.size) := by
    refine Value.rename_view (fun r => ?_) k
    cases r with
    | closure r =>
      unfold Lens.see keyLens
      dsimp only
      split
      · next hlt => rw [Datum.rename, if_pos (hlt.trans_le (Nat.le_max_left ..))]; rfl
      · rfl
    | _ => rfl
  unfold Heap.place
  rw [Renaming.view_value hsee, himage.rank _ hbelow]

theorem behind (r : Ref) : h'.behind (ρ.ref r) = (h.behind r).map ρ.ref := by
  cases r with
  | list r =>
    change Value.refsAll (h'.elems (ρ.list r)) = (Value.refsAll (h.elems r)).map ρ.ref
    rw [himage.elems, ← Renaming.values_eq_map, Renaming.refs_values]
  | dict r =>
    change (h'.entries (ρ.dict r)).flatMap _ = ((h.entries r).flatMap _).map ρ.ref
    rw [himage.entries, List.flatMap_map, List.map_flatMap]
    refine List.flatMap_congr fun e _ => ?_
    rw [List.map_append]
    exact congrArg₂ _ (Renaming.refs_value e.1) (Renaming.refs_value e.2)
  | set r =>
    change Value.refsAll (h'.members (ρ.set r)) = (Value.refsAll (h.members r)).map ρ.ref
    rw [himage.members, ← Renaming.values_eq_map, Renaming.refs_values]
  | closure r =>
    change (h'.closure (ρ.closure r)).pattern.refs h' ++ (h'.closure (ρ.closure r)).body.refs h' =
      ((h.closure r).pattern.refs h ++ (h.closure r).body.refs h).map ρ.ref
    rw [himage.closure, List.map_append]
    exact congrArg₂ _ (himage.refs_code _) (himage.refs_code _)

theorem ends (n : Nat) (r : Ref) : h'.ends n (ρ.ref r) = h.ends n r := by
  induction n generalizing r with
  | zero => rfl
  | succ n ih =>
    rw [Heap.ends, Heap.ends, himage.behind, List.all_map]
    exact congrArg (List.all _) (funext ih)

theorem ends_iff (n : Nat) (refs : List Ref) : h'.Ends n (refs.map ρ.ref) ↔ h.Ends n refs := by
  unfold Heap.Ends
  rw [List.forall_mem_map]
  exact forall₂_congr fun r _ => by rw [himage.ends]

theorem datum (v : Value) : h'.datum (ρ.value v) = (h.datum v).rename ρ.closures := by
  by_cases hends : ∃ n, h.Ends n v.refs
  · obtain ⟨n, hn⟩ := hends
    have hn' : h'.Ends n (ρ.value v).refs := by rwa [Renaming.refs_value, himage.ends_iff]
    rw [datum_of_ends hn (Nat.le_refl n), datum_of_ends hn' (Nat.le_refl n)]
    exact Renaming.view_value (himage.see_lens n) v
  · have hends' : ¬ ∃ n, h'.Ends n (ρ.value v).refs := by
      rw [Renaming.refs_value]
      simpa only [himage.ends_iff] using hends
    rw [datum_eq_view, datum_eq_view, viewDepth_of_not_ends hends, viewDepth_of_not_ends hends']
    exact Renaming.view_value (himage.see_lens _) v

theorem isFinite (v : Value) : h'.isFinite (ρ.value v) = h.isFinite v := by
  refine Bool.eq_iff_iff.mpr ?_
  rw [isFinite_iff, isFinite_iff, Renaming.refs_value]
  exact exists_congr fun n => himage.ends_iff n v.refs

theorem datum? (v : Value) : h'.datum? (ρ.value v) = (h.datum? v).map (·.rename ρ.closures) := by
  unfold Heap.datum?
  rw [himage.isFinite, himage.datum]
  split <;> rfl

theorem mapM_datum? (vs : List Value) :
    (vs.map ρ.value).mapM h'.datum? = (vs.mapM h.datum?).map (List.map (·.rename ρ.closures)) := by
  induction vs with
  | nil => rfl
  | cons v vs ih =>
    rw [List.map_cons, List.mapM_cons, List.mapM_cons, himage.datum?, ih]
    cases h.datum? v with
    | none => rfl
    | some d => cases vs.mapM h.datum? <;> rfl

omit himage

mutual

theorem codeDatum? (himage : Image ρ final old h h') (c : Code) :
    h'.codeDatum? (ρ.code c) = (h.codeDatum? c).map (·.rename ρ.closures) := by
  match c with
  | .value v => exact himage.datum? v
  | .form cs =>
    rw [Renaming.code, Heap.codeDatum?, Heap.codeDatum?, codeData? himage cs]
    cases h.codeData? cs <;> rfl
  | .slot r i =>
    rw [Renaming.code, Heap.codeDatum?, himage.slot]
    exact himage.datum? _

theorem codeData? (himage : Image ρ final old h h') (cs : List Code) :
    h'.codeData? (ρ.codes cs) = (h.codeData? cs).map (Datum.renameAll ρ.closures) := by
  match cs with
  | [] => rfl
  | c :: cs =>
    rw [Renaming.codes, Heap.codeData?, Heap.codeData?, codeDatum? himage c, codeData? himage cs]
    cases h.codeDatum? c with
    | none => rfl
    | some d => cases h.codeData? cs <;> rfl

end

end Heap.Image

end EventTally
