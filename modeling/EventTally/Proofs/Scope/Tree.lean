import EventTally.Eval.Control
import EventTally.Proofs.Keyed
import EventTally.Proofs.Scope
import Mathlib.Data.List.Nodup
import Mathlib.Data.List.Sort
import Mathlib.Data.String.Basic
import Mathlib.Order.Basic

/-! # Trees of scopes

Layers over layers form a tree, which grows by new layers and changes by names that are bound or made
invisible in any of them. What a layer shows depends on the layers that can be seen from it only, so a
change of one layer is noticed in that layer and in those that see through to it, and for the changed
name only.
-/

namespace EventTally.Heap

variable {h h' : Heap} {L M s t : ScopeRef} {n x : String} {v : Value} {seen : List String}

/-- What becomes of a single layer by new layers, bindings and names made invisible, in any order and
in any layer. -/
inductive ScopeTree : Heap → Prop
  | root {h : Heap} {bindings : List (String × Value)} (hdistinct : (bindings.map Prod.fst).Nodup)
      (hlayers : h.layers = #[{ bindings, hidden := [], base := none }]) : ScopeTree h
  | child {h : Heap} {s : ScopeRef} (htree : ScopeTree h) (hs : s.id < h.layers.size) :
      ScopeTree (h.child s).2
  | bind {h : Heap} {s : ScopeRef} (htree : ScopeTree h) (hs : s.id < h.layers.size) (n : String)
      (v : Value) : ScopeTree (h.bind s n v)
  | unbind {h : Heap} {s : ScopeRef} (htree : ScopeTree h) (hs : s.id < h.layers.size)
      (n : String) : ScopeTree (h.unbind s n)

/-- The layer `L` is the layer itself or lies below it, and none of the layers on the way there
binds or hides the name. -/
inductive Sees (h : Heap) (L : ScopeRef) (n : String) : ScopeRef → Prop
  | self : Sees h L n L
  | through {M b : ScopeRef} (hbase : (h.layer M).base = some b) (hlocal : h.localValue M n = none)
      (hhides : h.hides M n = false) (hsees : Sees h L n b) : Sees h L n M

/-- A layer is newer than its base and binds a name once. -/
structure Layered (h : Heap) : Prop where
  base_lt : ∀ s b, (h.layer s).base = some b → b.id < s.id
  distinct : ∀ s, ((h.layer s).bindings.map Prod.fst).Nodup

theorem layer_child (h : Heap) (s t : ScopeRef) : (h.child s).2.layer t =
    if t.id = h.layers.size then { bindings := [], hidden := [], base := some s } else h.layer t := by
  unfold Heap.child Heap.layer
  rw [Array.getElem?_push]
  split <;> rfl

theorem layer_modify (hL : L.id < h.layers.size) (f : Layer → Layer) (t : ScopeRef) :
    ({ h with layers := h.layers.modify L.id f } : Heap).layer t =
      if t = L then f (h.layer L) else h.layer t := by
  simp only [Heap.layer, Array.getElem?_modify]
  split
  · next hid =>
    obtain rfl : L = t := by
      cases L
      cases t
      exact congrArg ScopeRef.mk hid
    simp [hL]
  · next hid =>
    rw [if_neg fun ht => hid (congrArg ScopeRef.id ht).symm]

namespace Layered

theorem modify (hh : h.Layered) (hL : L.id < h.layers.size) {f : Layer → Layer}
    (hbase : (f (h.layer L)).base = (h.layer L).base)
    (hdistinct : ((f (h.layer L)).bindings.map Prod.fst).Nodup) :
    Layered { h with layers := h.layers.modify L.id f } := by
  constructor
  · intro s b hb
    rw [layer_modify hL] at hb
    split at hb
    · next hs =>
      rw [hbase, ← hs] at hb
      exact hh.base_lt s b hb
    · exact hh.base_lt s b hb
  · intro s
    rw [layer_modify hL]
    split
    · exact hdistinct
    · exact hh.distinct s

theorem child (hh : h.Layered) (hs : s.id < h.layers.size) : (h.child s).2.Layered := by
  constructor
  · intro t b hb
    rw [layer_child] at hb
    split at hb
    · next ht =>
      cases hb
      omega
    · exact hh.base_lt t b hb
  · intro t
    rw [layer_child]
    split
    · exact List.nodup_nil
    · exact hh.distinct t

end Layered

theorem ScopeTree.layered (hh : h.ScopeTree) : h.Layered := by
  induction hh with
  | @root h bindings hdistinct hlayers =>
    have hlayer (s : ScopeRef) : h.layer s = { bindings, hidden := [], base := none } ∨
        h.layer s = { bindings := [], hidden := [], base := none } := by
      unfold Heap.layer
      rw [hlayers, Array.getElem?_singleton]
      split
      · exact .inl rfl
      · exact .inr rfl
    constructor
    · intro s b hb
      rcases hlayer s with hs | hs <;> simp [hs] at hb
    · intro s
      rcases hlayer s with hs | hs <;> simp [hs, hdistinct]
  | child htree hs ih => exact ih.child hs
  | bind htree hs n v ih => exact ih.modify hs rfl (Keyed.nodup_insert_name v (ih.distinct _))
  | unbind htree hs n ih => exact ih.modify hs rfl (Keyed.nodup_erase_name (ih.distinct _))

theorem lookup_eq_of_sees (hsame : ∀ t, h.Sees t n M → h'.localValue t n = h.localValue t n ∧
    h'.hides t n = h.hides t n ∧ (h'.layer t).base = (h.layer t).base) :
    h'.lookup M n = h.lookup M n := by
  fun_induction Heap.lookup h M n with
  | case1 M v hlocal =>
    obtain ⟨hlocal', -, -⟩ := hsame M .self
    rw [Heap.lookup, hlocal', hlocal]
  | case2 M hlocal hhides =>
    obtain ⟨hlocal', hhides', -⟩ := hsame M .self
    rw [Heap.lookup, hlocal', hlocal, hhides', hhides]
    rfl
  | case3 M hlocal hhides hbase =>
    obtain ⟨hlocal', hhides', hbase'⟩ := hsame M .self
    rw [Heap.lookup, hlocal', hlocal, hhides', hbase', hbase]
    exact if_neg hhides
  | case4 M hlocal hhides b hbase hlt ih =>
    obtain ⟨hlocal', hhides', hbase'⟩ := hsame M .self
    have hrest := ih fun t ht => hsame t (.through hbase hlocal (Bool.eq_false_iff.mpr hhides) ht)
    rw [Heap.lookup, hlocal', hlocal, hhides', hbase', hbase]
    dsimp only
    rw [if_neg hhides, if_pos hlt, hrest]
  | case5 M hlocal hhides b hbase hlt =>
    obtain ⟨hlocal', hhides', hbase'⟩ := hsame M .self
    rw [Heap.lookup, hlocal', hlocal, hhides', hbase', hbase]
    dsimp only
    rw [if_neg hhides, if_neg hlt]

theorem Layered.lookup_eq (hh : h.Layered) (s : ScopeRef) (n : String) :
    h.lookup s n = (h.localValue s n).or (if h.hides s n then none
      else (h.layer s).base.bind fun b => h.lookup b n) := by
  rw [Heap.lookup]
  cases hlocal : h.localValue s n with
  | some v => rfl
  | none =>
    cases hbase : (h.layer s).base with
    | none => rfl
    | some b =>
      rw [Option.none_or, Option.bind_some]
      dsimp only
      rw [if_pos (hh.base_lt s b hbase)]

theorem Sees.lookup_eq (hh : h.Layered) (hsees : h.Sees L n M) : h.lookup M n = h.lookup L n := by
  induction hsees with
  | self => rfl
  | through hbase hlocal hhides hsees ih =>
    rw [hh.lookup_eq, hlocal, hhides, hbase]
    exact ih

theorem Sees.id_le (hh : h.Layered) (hsees : h.Sees L n M) : L.id ≤ M.id := by
  induction hsees with
  | self => exact Nat.le_refl _
  | through hbase hlocal hhides hsees ih => exact ih.trans (hh.base_lt _ _ hbase).le

theorem localValue_isSome : (h.localValue s n).isSome ↔ n ∈ (h.layer s).bindings.map Prod.fst :=
  Keyed.find?_name_isSome

theorem mem_namesBeyond (hh : h.Layered) (seen : List String) (s : ScopeRef) :
    n ∈ h.namesBeyond seen s ↔ n ∉ seen ∧ (h.lookup s n).isSome := by
  fun_induction Heap.namesBeyond h seen s with
  | case1 seen s l own hbase =>
    rw [hh.lookup_eq, hbase]
    simp only [Option.bind_none, ite_self, Option.or_none, localValue_isSome]
    simp [own, l, and_comm]
  | case2 seen s l own b hbase hlt ih =>
    have hown : n ∈ own ↔ n ∉ seen ∧ (h.localValue s n).isSome := by
      rw [localValue_isSome]
      simp [own, l, and_comm]
    have hhides : h.hides s n = true ↔ n ∈ l.hidden := List.contains_iff_mem
    rw [hh.lookup_eq, hbase, List.mem_append, ih, List.mem_append, List.mem_append, hown, ← hhides]
    cases h.localValue s n with
    | some v =>
      simp only [Option.isSome_some, Option.some_or, and_true]
      -- A name that is bound here is not found in the base once more.
      refine or_iff_left fun hbeyond => hbeyond.1 ?_
      by_cases hn : n ∈ seen
      · exact .inr hn
      · exact .inl (.inl hn)
    | none =>
      simp only [Option.isSome_none, Option.none_or, Option.bind_some]
      cases h.hides s n <;> simp
  | case3 seen s l own b hbase hlt => exact absurd (hh.base_lt s b hbase) hlt

theorem nodup_namesBeyond (hh : h.Layered) (seen : List String) (s : ScopeRef) :
    (h.namesBeyond seen s).Nodup := by
  fun_induction Heap.namesBeyond h seen s with
  | case1 seen s l own hbase => exact (hh.distinct s).filter _
  | case2 seen s l own b hbase hlt ih =>
    refine List.nodup_append'.mpr ⟨(hh.distinct s).filter _, ih, ?_⟩
    intro x hx hbeyond
    obtain ⟨hnew, -⟩ := (mem_namesBeyond hh _ _).mp hbeyond
    exact hnew (List.mem_append_left _ (List.mem_append_left _ hx))
  | case3 seen s l own b hbase hlt => exact (hh.distinct s).filter _

theorem names_sorted (hh : h.Layered) (s : ScopeRef) : (h.names s).Pairwise (· < ·) := by
  have hle : (h.names s).Pairwise (· ≤ ·) := List.pairwise_mergeSort' _ _
  have hne : (h.names s).Pairwise (· ≠ ·) :=
    (List.mergeSort_perm _ _).nodup_iff.mpr (nodup_namesBeyond hh [] s)
  exact (hle.and hne).imp fun hxy => lt_of_le_of_ne hxy.1 hxy.2

theorem mem_names (hh : h.Layered) (s : ScopeRef) : n ∈ h.names s ↔ (h.lookup s n).isSome := by
  rw [names, List.mem_mergeSort, mem_namesBeyond hh]
  simp

theorem sees_of_lookup_modify (hL : L.id < h.layers.size) {f : Layer → Layer}
    (hbase : (f (h.layer L)).base = (h.layer L).base)
    (hlocal : ∀ m ≠ n, Keyed.find? (· == m) (f (h.layer L)).bindings = h.localValue L m)
    (hhides : ∀ m ≠ n, (f (h.layer L)).hidden.contains m = h.hides L m) {m : String}
    (hne : ({ h with layers := h.layers.modify L.id f } : Heap).lookup M m ≠ h.lookup M m) :
    m = n ∧ h.Sees L n M := by
  by_contra hnot
  apply hne
  apply lookup_eq_of_sees
  intro t ht
  rw [localValue, hides, layer_modify hL]
  split
  · next htL =>
    subst htL
    have hm : m ≠ n := by
      rintro rfl
      exact hnot ⟨rfl, ht⟩
    exact ⟨hlocal m hm, hhides m hm, hbase⟩
  · exact ⟨rfl, rfl, rfl⟩

theorem Sees.of_layers (hsees : h.Sees L n M) (hsame : ∀ t, t ≠ L → h'.layer t = h.layer t) :
    h'.Sees L n M := by
  induction hsees with
  | self => exact .self
  | @through M b hbase hlocal hhides hsees ih =>
    by_cases hM : M = L
    · exact hM ▸ .self
    · have hlayer := hsame M hM
      refine .through (hlayer ▸ hbase) ?_ ?_ ih
      · rw [localValue, hlayer]
        exact hlocal
      · rw [hides, hlayer]
        exact hhides

theorem lookup_bind_self (hL : L.id < h.layers.size) (n : String) (v : Value) :
    (h.bind L n v).lookup L n = some v := by
  rw [Heap.lookup, localValue, layer_bind hL, Keyed.find?_insert_name]
  simp

theorem sees_of_lookup_bind (hL : L.id < h.layers.size) {m : String}
    (hne : (h.bind L n v).lookup M m ≠ h.lookup M m) : m = n ∧ h.Sees L n M := by
  refine sees_of_lookup_modify hL rfl (fun m hm => ?_) (fun _ _ => rfl) hne
  rw [Keyed.find?_insert_name, if_neg fun heq => hm (eq_of_beq heq).symm]
  rfl

section Unbind

variable (hh : h.Layered) (hL : L.id < h.layers.size)
include hh hL

theorem sees_of_lookup_unbind {m : String}
    (hne : (h.unbind L n).lookup M m ≠ h.lookup M m) : m = n ∧ h.Sees L n M := by
  refine sees_of_lookup_modify hL rfl (fun m hm => ?_) (fun m hm => ?_) hne
  · rw [Keyed.find?_erase_name (hh.distinct L), if_neg fun heq => hm (eq_of_beq heq).symm]
    rfl
  · unfold hides
    dsimp only
    split <;> simp [hm]

theorem localValue_unbind_self (n : String) : (h.unbind L n).localValue L n = none := by
  rw [localValue, unbind, layer_modify hL, if_pos rfl, Keyed.find?_erase_name (hh.distinct L)]
  simp

omit hh in
theorem hides_unbind_self (hshows : h.baseShows L n) : (h.unbind L n).hides L n := by
  rw [hides, unbind, layer_modify hL, if_pos rfl]
  rw [hshows]
  cases hhidden : (h.layer L).hidden.contains n with
  | true => exact hhidden
  | false => simp

theorem lookup_of_layer_unbind (hlayer : h'.layer L = (h.unbind L n).layer L)
    (hshows : h.baseShows L n) : h'.lookup L n = none := by
  have hlocal := localValue_unbind_self hh hL n
  have hhides := hides_unbind_self hL hshows
  rw [localValue, ← hlayer] at hlocal
  rw [hides, ← hlayer] at hhides
  rw [Heap.lookup, localValue, hlocal]
  exact if_pos hhides

theorem lookup_unbind_self (n : String) : (h.unbind L n).lookup L n = none := by
  cases hshows : h.baseShows L n with
  | true => exact lookup_of_layer_unbind hh hL rfl hshows
  | false =>
    have hbase : ((h.unbind L n).layer L).base = (h.layer L).base := by
      rw [unbind, layer_modify hL, if_pos rfl]
    have hnew : (h.unbind L n).Layered := hh.modify hL rfl (Keyed.nodup_erase_name (hh.distinct L))
    rw [hnew.lookup_eq, localValue_unbind_self hh hL, hbase, Option.none_or]
    split
    · rfl
    · cases hb : (h.layer L).base with
      | none => rfl
      | some b =>
        rw [baseShows, hb] at hshows
        have hlt := hh.base_lt L b hb
        -- the base is older, so it does not see the layer and shows what it showed
        have hsame : (h.unbind L n).lookup b n = h.lookup b n := by
          by_contra hne
          have hle := (sees_of_lookup_unbind hh hL hne).2.id_le hh
          omega
        rw [Option.bind_some, hsame]
        simpa using hshows

end Unbind

/-- What a tree of scopes promises for its layer `L`. -/
structure ScopeLaws (h : Heap) (L : ScopeRef) : Prop where
  names_sorted : (h.names L).Pairwise (· < ·)
  mem_names (n : String) : n ∈ h.names L ↔ (h.lookup L n).isSome
  /-- Binding a name changes what is found under that name only, and where the layer is seen. -/
  of_bind (n : String) (v : Value) (M : ScopeRef) (m : String)
    (hne : (h.bind L n v).lookup M m ≠ h.lookup M m) : m = n ∧ h.Sees L n M
  of_unbind (n : String) (M : ScopeRef) (m : String)
    (hne : (h.unbind L n).lookup M m ≠ h.lookup M m) : m = n ∧ h.Sees L n M
  unbind_lookup (n : String) : (h.unbind L n).lookup L n = none
  /-- A name that the base showed stays invisible for as long as the layer is left alone. -/
  unbind_stays (n : String) (h' : Heap) (hshows : h.baseShows L n)
    (hlayer : h'.layer L = (h.unbind L n).layer L) : h'.lookup L n = none
  /-- Undefining a name gives the value it had. -/
  removed (n : String) (last : Value) (w : World) (hw : w.heap = h) :
    (EvalM.removeNames L last [n]).run w =
      (.ok ((h.lookup L n).getD .null), { w with heap := h.unbind L n })
  /-- A name that is bound is found, even if it was hidden, and wherever the layer is seen. -/
  bind_lookup (n : String) (v : Value) (M : ScopeRef) (hsees : h.Sees L n M) :
    (h.bind L n v).lookup M n = some v

/-- **Scope chain laws.** Whatever layers, bindings and invisible names a tree of scopes was made of,
the laws hold for each of its layers. -/
theorem scope_laws (hh : h.ScopeTree) (hL : L.id < h.layers.size) : h.ScopeLaws L where
  names_sorted := Heap.names_sorted hh.layered L
  mem_names _ := Heap.mem_names hh.layered L
  of_bind _ _ _ _ hne := sees_of_lookup_bind hL hne
  of_unbind _ _ _ hne := sees_of_lookup_unbind hh.layered hL hne
  unbind_lookup n := lookup_unbind_self hh.layered hL n
  unbind_stays _ _ hshows hlayer := lookup_of_layer_unbind hh.layered hL hlayer hshows
  removed := by
    rintro n last w rfl
    rfl
  bind_lookup n v M hsees := by
    have hbound : (h.bind L n v).Layered :=
      hh.layered.modify hL rfl (Keyed.nodup_insert_name v (hh.layered.distinct L))
    have hstill : (h.bind L n v).Sees L n M := hsees.of_layers fun t ht => by
      rw [bind, layer_modify hL, if_neg ht]
    rw [hstill.lookup_eq hbound, lookup_bind_self hL]

theorem initial_scopeTree : initial.ScopeTree :=
  .root (by decide +kernel) rfl

/-- A scope over the builtins that hid one of them and bound it anew. -/
theorem scope_laws_rebound :
    (((initial.child builtinScope).2.unbind ⟨1⟩ "list").bind ⟨1⟩ "list" .null).ScopeLaws ⟨1⟩ :=
  scope_laws (.bind (.unbind (.child initial_scopeTree (by decide)) (by decide) "list")
    (by decide) "list" .null) (by decide)

end EventTally.Heap
