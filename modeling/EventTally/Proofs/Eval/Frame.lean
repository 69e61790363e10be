import EventTally.Proofs.Eval.Invariant
import EventTally.Proofs.Scope

/-! # What evaluation leaves alone

An evaluation writes to the layer of its own scope and to layers that it makes itself; a call of a
function, which is evaluated in a layer of its own, writes to no layer that was there before. So a
scope shows its bases, and the builtins, as they were.
-/

namespace EventTally

namespace Heap

variable {Own : ScopeRef → Prop} {h h' : Heap} {s t : ScopeRef}

theorem lookup_congr (hsame : ∀ b : ScopeRef, b.id ≤ t.id → h'.layer b = h.layer b)
    (name : String) : h'.lookup t name = h.lookup t name := by
  induction hn : t.id using Nat.strong_induction_on generalizing t with
  | _ n ih =>
    subst hn
    have hbase : ∀ b : ScopeRef, (if b.id < t.id then h'.lookup b name else none) =
        if b.id < t.id then h.lookup b name else none := by
      intro b
      split
      · rename_i hlt
        exact ih b.id hlt (fun b' hb' => hsame b' (hb'.trans hlt.le)) rfl
      · rfl
    rw [Heap.lookup, Heap.lookup.eq_def h t]
    simp only [localValue, hides, hsame t (Nat.le_refl _), hbase]
    rfl

/-- The layers of `h` are still there in `h'`, over the same bases, and those outside of `Own` are
unchanged. -/
structure KeepsLayers (Own : ScopeRef → Prop) (h h' : Heap) : Prop where
  size_le : h.layers.size ≤ h'.layers.size
  base : ∀ t, t.id < h.layers.size → (h'.layer t).base = (h.layer t).base
  layer : ∀ t, t.id < h.layers.size → ¬ Own t → h'.layer t = h.layer t

namespace KeepsLayers

theorem refl (Own : ScopeRef → Prop) (h : Heap) : h.KeepsLayers Own h :=
  ⟨Nat.le_refl _, fun _ _ => rfl, fun _ _ _ => rfl⟩

theorem of_eq {h'' : Heap} (hk : h.KeepsLayers Own h') (hlayers : h''.layers = h'.layers) :
    h.KeepsLayers Own h'' := by
  have hlayer : ∀ t, h''.layer t = h'.layer t := by
    intro t
    rw [Heap.layer, hlayers, Heap.layer]
  refine ⟨?_, ?_, ?_⟩
  · rw [hlayers]
    exact hk.size_le
  · intro t ht
    rw [hlayer, hk.base t ht]
  · intro t ht hown
    rw [hlayer, hk.layer t ht hown]

theorem child (hk : h.KeepsLayers Own h') (b : ScopeRef) : h.KeepsLayers Own (h'.child b).2 := by
  have hlayer : ∀ t, t.id < h.layers.size → (h'.child b).2.layer t = h'.layer t := by
    intro t ht
    exact (Extends.child h' b).layer (ht.trans_le hk.size_le)
  refine ⟨?_, ?_, ?_⟩
  · exact hk.size_le.trans (Extends.child h' b).layers.size_le
  · intro t ht
    rw [hlayer t ht, hk.base t ht]
  · intro t ht hown
    rw [hlayer t ht, hk.layer t ht hown]

theorem modify (hk : h.KeepsLayers Own h') (hs : Own s ∨ h.layers.size ≤ s.id) {f : Layer → Layer}
    (hf : ∀ l, (f l).base = l.base) :
    h.KeepsLayers Own { h' with layers := h'.layers.modify s.id f } := by
  refine ⟨?_, ?_, ?_⟩
  · rw [Array.size_modify]
    exact hk.size_le
  · intro t ht
    rw [← hk.base t ht]
    unfold Heap.layer
    rw [Array.getElem?_modify]
    split
    · cases h'.layers[t.id]? with
      | none => rfl
      | some l => exact hf l
    · rfl
  · intro t ht hown
    have hne : s.id ≠ t.id := by
      intro heq
      rcases hs with hs | hs
      · obtain ⟨i⟩ := s
        obtain ⟨j⟩ := t
        cases heq
        exact hown hs
      · omega
    rw [← hk.layer t ht hown]
    unfold Heap.layer
    rw [Array.getElem?_modify, if_neg hne]

end KeepsLayers

end Heap

namespace EvalM

theorem invariant_keepsLayers (Own : ScopeRef → Prop) (h : Heap) :
    Invariant (fun w => h.KeepsLayers Own w.heap) (fun t => Own t ∨ h.layers.size ≤ t.id)
      Anything where
  hashable := fun _ _ => trivial
  keys := fun _ _ _ _ => trivial
  members := fun _ _ _ _ => trivial
  newList := fun _ hw => hw.of_eq rfl
  newDict := fun _ hw => hw.of_eq rfl
  newSet := fun _ hw => hw.of_eq rfl
  newClosure := fun _ hw => hw.of_eq rfl
  child := fun b hw => ⟨.inr hw.size_le, hw.child b⟩
  bind := fun _ _ hs hw => hw.modify hs fun _ => rfl
  unbind := fun _ hs hw => hw.modify hs fun _ => rfl
  setSlot := fun _ _ _ hw => hw.of_eq rfl
  removeSlot := fun _ _ hw => hw.of_eq rfl
  setEntries := fun _ _ hw => hw.of_eq rfl
  note := fun _ hw => hw

theorem keepsLayers_eval (fuel : Nat) (c : Code) (s : ScopeRef) (w : World) :
    w.heap.KeepsLayers (· = s) (((recursor fuel).eval c s).run w).2.heap :=
  (keeps_eval (invariant_keepsLayers (· = s) w.heap) fuel c (.inl rfl) w (.refl _ _)).1

theorem keepsLayers_applyClosure (fuel : Nat) (ref : ClosureRef) (args : List Value) (w : World) :
    w.heap.KeepsLayers (fun _ => False) ((applyClosure (recursor fuel) ref args).run w).2.heap :=
  (keeps_applyClosure (invariant_keepsLayers (fun _ => False) w.heap) fuel ref args w
    (.refl _ _)).1

/-- However an evaluation in the scope `s` ends, every other layer that was there before is as it
was, even the layer of `s` has the base it had, and the scopes below `s` show what they showed; and
however a call ends, every layer that was there before is as it was. -/
theorem layer_after_eval (fuel : Nat) (w : World) (t : ScopeRef)
    (ht : t.id < w.heap.layers.size) :
    (∀ c s, t ≠ s → (((recursor fuel).eval c s).run w).2.heap.layer t = w.heap.layer t) ∧
    (∀ c s, ((((recursor fuel).eval c s).run w).2.heap.layer t).base = (w.heap.layer t).base) ∧
    (∀ c s name, t.id < s.id →
      (((recursor fuel).eval c s).run w).2.heap.lookup t name = w.heap.lookup t name) ∧
    ∀ ref args, ((applyClosure (recursor fuel) ref args).run w).2.heap.layer t =
      w.heap.layer t := by
  refine ⟨fun c s => ?_, fun c s => ?_, fun c s name hlt => ?_, fun ref args => ?_⟩
  · exact (keepsLayers_eval fuel c s w).layer t ht
  · exact (keepsLayers_eval fuel c s w).base t ht
  · refine Heap.lookup_congr (fun b hb => ?_) name
    refine (keepsLayers_eval fuel c s w).layer b (hb.trans_lt ht) ?_
    rintro rfl
    omega
  · exact (keepsLayers_applyClosure fuel ref args w).layer t ht id

/-- A scope over the builtins, and a function `(fn [] (def x 2))` defined in it. -/
def overBuiltins : World :=
  let h := (Heap.initial.child Heap.builtinScope).2
  { World.initial with
    heap := (h.newClosure { pattern := .form [.sym "list"]
                            body := .form [.sym "def", .sym "x", .value (.int 2)]
                            scope := ⟨1⟩, name := "" }).2 }

/-- `(undef len)` hides a builtin in the scope only, and the function defines `x` in a new one. -/
theorem layer_after_eval_undef :
    Heap.builtinScope.id < overBuiltins.heap.layers.size ∧ Heap.builtinScope ≠ ⟨1⟩ ∧
    ∃ c : Code, (((recursor 9).eval c ⟨1⟩).run overBuiltins).2.heap.hides ⟨1⟩ "len" = true ∧
      (((recursor 9).eval c ⟨1⟩).run overBuiltins).2.heap.layer Heap.builtinScope =
        overBuiltins.heap.layer Heap.builtinScope ∧
      (((applyClosure (recursor 9) ⟨0⟩ []).run overBuiltins).2.heap.localValue ⟨2⟩ "x").isSome ∧
      ((applyClosure (recursor 9) ⟨0⟩ []).run overBuiltins).2.heap.layer ⟨1⟩ =
        overBuiltins.heap.layer ⟨1⟩ := by
  have hbuiltins := layer_after_eval 9 overBuiltins Heap.builtinScope (by decide)
  have hscope := layer_after_eval 9 overBuiltins ⟨1⟩ (by decide)
  refine ⟨by decide, by decide, .form [.sym "undef", .sym "len"], by decide +kernel, ?_,
    by decide +kernel, hscope.2.2.2 ⟨0⟩ []⟩
  exact hbuiltins.1 _ ⟨1⟩ (by decide)

end EvalM

end EventTally
