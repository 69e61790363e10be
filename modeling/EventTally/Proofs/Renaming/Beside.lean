import EventTally.Proofs.Renaming.Matching
import EventTally.Proofs.Renaming.Restart

/-! # Evaluations beside others

Two worlds are beside each other if the second differs only in having more objects. Evaluations from
them end in the same way and beside each other. Between evaluations the second world may get objects
of its own, so the renaming is taken up again for each one.
-/

namespace EventTally

/-- The second world is like the first, with more objects but no more functions. -/
structure Beside (ρ : Renaming) (w w' : World) : Prop where
  closed : w.heap.Closed
  copies : Heap.Copies ρ w.heap w'.heap
  functions : ρ.closures = id
  count : w'.heap.closures.size = w.heap.closures.size
  order : w'.heap.rank = w.heap.rank
  tallies : ∀ name, w'.store.tallyText? name = w.store.tallyText? name
  journal : w'.journal = w.journal

theorem Beside.refl {w : World} (hw : w.heap.Closed) : Beside .same w w :=
  ⟨hw, Heap.copies_same _, rfl, rfl, rfl, fun _ => rfl, rfl⟩

section

variable {ρ : Renaming} {w w' : World} (hbeside : Beside ρ w w')
include hbeside

theorem Beside.extend {h : Heap} (hext : w'.heap.Extends h)
    (hcount : h.closures.size = w'.heap.closures.size) (horder : h.rank = w'.heap.rank) :
    Beside ρ w { w' with heap := h } :=
  { hbeside with
    copies := hbeside.copies.extend hext
    count := hcount.trans hbeside.count
    order := horder.trans hbeside.order }

theorem Beside.newList (vs : List Value) :
    Beside ρ w { w' with heap := (w'.heap.newList vs).2 } := hbeside.extend (.newList _ _) rfl rfl

theorem Beside.functions_resume : (ρ.resume w.heap w'.heap).closures = id := by
  change EventTally.resume _ _ ρ.closures = id
  rw [hbeside.functions, hbeside.count, resume_id]

theorem Beside.image (final : Heap) :
    Heap.Image (ρ.resume w.heap w'.heap) final w'.heap w.heap w'.heap := by
  refine hbeside.copies.image hbeside.closed (fun d => ?_) final
  rw [hbeside.functions_resume, Datum.rename_id, hbeside.order]

theorem Beside.resumed : Beside (ρ.resume w.heap w'.heap) w w' :=
  { hbeside with copies := (hbeside.image w.heap).copies, functions := hbeside.functions_resume }

theorem Beside.lookup_builtin {s : ScopeRef} (hs : w.heap.HasScope s) {name : String} {b : Builtin}
    (h : w.heap.lookup s name = some (.builtin b)) :
    w'.heap.lookup (ρ.scope s) name = some (.builtin b) := by
  have hlookup := (hbeside.image w.heap).lookup s name
  rw [(ρ.agree_resume w.heap w'.heap).scope hs, h] at hlookup
  exact hlookup

end

theorem Fault.Alike.eq {κ : Nat → Nat} (hκ : κ = id) {f f' : Fault} (h : f.Alike κ f') : f = f' := by
  subst hκ
  cases h with
  | raised h trace =>
    cases h with
    | same r => rfl
    | key d => rw [Datum.rename_id]
  | crashed => rfl
  | exhausted => rfl

theorem Beside.datum {ρ : Renaming} {w w' : World} (hbeside : Beside ρ w w') {v : Value}
    (hv : w.heap.HasValue v) : w'.heap.datum (ρ.value v) = w.heap.datum v := by
  have hdatum := (hbeside.image w.heap).datum v
  rwa [(ρ.agree_resume w.heap w'.heap).value hv, hbeside.functions_resume, Datum.rename_id] at hdatum

theorem Beside.isFinite {ρ : Renaming} {w w' : World} (hbeside : Beside ρ w w') {v : Value}
    (hv : w.heap.HasValue v) : w'.heap.isFinite (ρ.value v) = w.heap.isFinite v := by
  have hfinite := (hbeside.image w.heap).isFinite v
  rwa [(ρ.agree_resume w.heap w'.heap).value hv] at hfinite

theorem Beside.map_datum {ρ : Renaming} {w w' : World} (hbeside : Beside ρ w w') {vs : List Value}
    (hvs : ∀ v ∈ vs, w.heap.HasValue v) : (vs.map ρ.value).map w'.heap.datum = vs.map w.heap.datum := by
  rw [List.map_map]
  exact List.map_congr_left fun v hv => hbeside.datum (hvs v hv)

theorem Beside.forall_isFinite {ρ : Renaming} {w w' : World} (hbeside : Beside ρ w w') {vs : List Value}
    (hvs : ∀ v ∈ vs, w.heap.HasValue v) :
    (∀ v ∈ vs.map ρ.value, w'.heap.isFinite v = true) ↔ ∀ v ∈ vs, w.heap.isFinite v = true := by
  rw [List.forall_mem_map]
  exact forall₂_congr fun v hv => by rw [hbeside.isFinite (hvs v hv)]

namespace EvalM

variable {ρ : Renaming} {w w' : World} {α : Type} {x y : EvalM α} {g : Renaming → α → α}

/-- What leads on from a closed heap ends in a closed heap, with a result that refers to nothing else,
if it does the same in images. -/
theorem closed_run (hx : ∀ P : Pairing, Renaming.Agree .same P.ρ w.heap → P.Mirrors (g P.ρ) x x)
    (hw : w.heap.Closed) :
    w.heap.Within (x.run w).2.heap ∧ (x.run w).2.heap.Closed ∧
      ∀ a, (x.run w).1 = .ok a → g (.beyond (x.run w).2.heap) a = a := by
  set final := (x.run w).2.heap with hfinal
  have hlimit : final.Within final := .refl final
  have hwithin : w.heap.Within final := by
    let P : Pairing := ⟨.same, final, w.heap, w.journal, w.journal, fun _ => True⟩
    exact (hx P (.refl _ _)).bounded w hlimit
  let P : Pairing := ⟨.beyond final, final, w.heap, w.journal, w.journal, fun _ => True⟩
  have hagree : Renaming.Agree .same P.ρ w.heap :=
    (Renaming.Agree.refl _ _).trans (Renaming.agree_beyond final) hwithin
  have hworlds : P.Worlds w w :=
    ⟨Heap.image_beyond hw hwithin, ⟨fun _ _ => rfl, fun _ h => absurd trivial h⟩, [], rfl, rfl⟩
  obtain ⟨e, -, -, name, hname⟩ | ⟨hrel, hmatch⟩ := (hx P hagree w hlimit).2 w hworlds
  · exact absurd trivial hname
  · refine ⟨hwithin, Heap.closed_of_image hrel.image (hw.builtins.within hwithin), ?_⟩
    intro a ha
    rw [ha] at hmatch
    exact hmatch.symm

theorem beside_run (hx : ∀ P : Pairing, Renaming.Agree .same P.ρ w.heap → P.Mirrors (g P.ρ) x x)
    (hxy : ∀ P : Pairing, Renaming.Agree ρ P.ρ w.heap → P.Mirrors (g P.ρ) x y)
    (hbeside : Beside ρ w w') :
    ∃ ρ', Heap.Moves ρ ρ' w.heap w'.heap (x.run w).2.heap (y.run w').2.heap ∧
      Beside ρ' (x.run w).2 (y.run w').2 ∧
      Matched (fun a b => b = g ρ' a) Eq (x.run w).1 (y.run w').1 := by
  obtain ⟨hwithin, hclosed, -⟩ := closed_run hx hbeside.closed
  set final := (x.run w).2.heap with hfinal
  have hlimit : final.Within final := .refl final
  let P : Pairing := ⟨ρ.resume w.heap w'.heap, final, w'.heap, w.journal, w'.journal, fun _ => True⟩
  have hworlds : P.Worlds w w' :=
    ⟨hbeside.image final, ⟨fun name _ => hbeside.tallies name, fun _ h => absurd trivial h⟩, [], rfl,
      rfl⟩
  obtain ⟨e, -, -, name, hname⟩ | ⟨hrel, hmatch⟩ :=
    (hxy P (ρ.agree_resume w.heap w'.heap) w hlimit).2 w' hworlds
  · exact absurd trivial hname
  · have hfunctions : P.ρ.closures = id := hbeside.functions_resume
    have hequal := hmatch.imp (fun _ _ _ => id) fun _ _ h => Fault.Alike.eq hfunctions h
    refine ⟨P.ρ, hrel.image.moves hwithin, ⟨hclosed, hrel.image.copies, ?_, ?_, ?_, ?_, ?_⟩, hequal⟩
    · exact hfunctions
    · exact hrel.image.closures.size_eq hfunctions
    · rw [hrel.image.kept, ← hwithin.rank]
      exact hbeside.order
    · exact fun name => hrel.stores.known name trivial
    · obtain ⟨texts, hnoted, hnoted'⟩ := hrel.noted
      rw [hnoted, hnoted']
      exact congrArg (texts ++ ·) hbeside.journal

theorem beside_source {x : ScopeRef → EvalM α} {s s' : ScopeRef}
    (hx : ∀ (P : Pairing) s, P.Mirrors (g P.ρ) (x s) (x (P.ρ.scope s))) (hbeside : Beside ρ w w')
    (hs : w.heap.HasScope s) (hscope : ρ.scope s = s') :
    ∃ ρ', Heap.Moves ρ ρ' w.heap w'.heap ((x s).run w).2.heap ((x s').run w').2.heap ∧
      Beside ρ' ((x s).run w).2 ((x s').run w').2 ∧
      Matched (fun a b => b = g ρ' a) Eq ((x s).run w).1 ((x s').run w').1 ∧
      ∀ a, ((x s).run w).1 = .ok a → g (.beyond ((x s).run w).2.heap) a = a := by
  have hself (P : Pairing) (hagree : Renaming.Agree .same P.ρ w.heap) :
      P.Mirrors (g P.ρ) (x s) (x s) := by
    have hsame : P.ρ.scope s = s := hagree.scope hs
    have hmirrors := hx P s
    rwa [hsame] at hmirrors
  have hother (P : Pairing) (hagree : Renaming.Agree ρ P.ρ w.heap) :
      P.Mirrors (g P.ρ) (x s) (x s') := by
    have hmirrors := hx P s
    rwa [(hagree.scope hs).trans hscope] at hmirrors
  obtain ⟨-, -, hfixed⟩ := closed_run hself hbeside.closed
  obtain ⟨ρ', hmoves, hbeside', hmatch⟩ := beside_run hself hother hbeside
  exact ⟨ρ', hmoves, hbeside', hmatch, hfixed⟩

end EvalM

end EventTally
