import EventTally.Proofs.Renaming.Image

/-! # Closed heaps

In a closed heap no object refers to one that is not there. Renamings that agree on the objects of the
heap then do the same to whatever it holds. Conversely, if what a heap holds stays the same when the
numbers beyond its objects are changed, the heap is closed.
-/

namespace EventTally

namespace Heap

/-- The objects that the value refers to are there. -/
inductive HasValue (h : Heap) : Value → Prop
  | atom (a : Atom) : HasValue h (.atom a)
  | tuple {vs : List Value} (hvs : ∀ v ∈ vs, HasValue h v) : HasValue h (.tuple vs)
  | list {r : ListRef} (hr : r.id < h.lists.size) : HasValue h (.list r)
  | dict {r : DictRef} (hr : r.id < h.dicts.size) : HasValue h (.dict r)
  | set {r : SetRef} (hr : r.id < h.sets.size) : HasValue h (.set r)
  | builtin (b : Builtin) : HasValue h (.builtin b)
  | closure {r : ClosureRef} (hr : r.id < h.closures.size) : HasValue h (.closure r)

inductive HasCode (h : Heap) : Code → Prop
  | value {v : Value} (hv : h.HasValue v) : HasCode h (.value v)
  | form {cs : List Code} (hcs : ∀ c ∈ cs, HasCode h c) : HasCode h (.form cs)
  | slot {r : ListRef} (hr : r.id < h.lists.size) (i : Nat) : HasCode h (.slot r i)

def HasScope (h : Heap) (s : ScopeRef) : Prop := s.id < h.layers.size

/-- What the objects refer to is there. -/
structure Closed (h : Heap) : Prop where
  builtins : h.HasScope builtinScope
  lists : ∀ c ∈ h.lists, ∀ v ∈ c.slots, h.HasValue v
  dicts : ∀ es ∈ h.dicts, ∀ e ∈ es, h.HasValue e.1 ∧ h.HasValue e.2
  sets : ∀ vs ∈ h.sets, ∀ v ∈ vs, h.HasValue v
  closures : ∀ c ∈ h.closures, h.HasCode c.pattern ∧ h.HasCode c.body ∧ h.HasScope c.scope
  layers : ∀ l ∈ h.layers, (∀ b ∈ l.bindings, h.HasValue b.2) ∧ ∀ s, l.base = some s → h.HasScope s

variable {h h' : Heap}

namespace Closed

variable (hclosed : h.Closed)
include hclosed

theorem elems (r : ListRef) : ∀ v ∈ h.elems r, h.HasValue v := by
  intro v hv
  have hslot := List.mem_of_mem_take hv
  unfold Heap.list at hslot
  cases hcell : h.lists[r.id]? with
  | none =>
    rw [hcell] at hslot
    cases hslot
  | some cell =>
    rw [hcell] at hslot
    exact hclosed.lists cell (Array.mem_of_getElem? hcell) v (Array.mem_toList_iff.mp hslot)

theorem entries (r : DictRef) : ∀ e ∈ h.entries r, h.HasValue e.1 ∧ h.HasValue e.2 := by
  intro e he
  unfold Heap.entries at he
  cases hes : h.dicts[r.id]? with
  | none =>
    rw [hes] at he
    cases he
  | some es =>
    rw [hes] at he
    exact hclosed.dicts es (Array.mem_of_getElem? hes) e he

theorem members (r : SetRef) : ∀ v ∈ h.members r, h.HasValue v := by
  intro v hv
  unfold Heap.members at hv
  cases hvs : h.sets[r.id]? with
  | none =>
    rw [hvs] at hv
    cases hv
  | some vs =>
    rw [hvs] at hv
    exact hclosed.sets vs (Array.mem_of_getElem? hvs) v hv

theorem bindings (s : ScopeRef) : ∀ b ∈ (h.layer s).bindings, h.HasValue b.2 := by
  intro b hb
  unfold Heap.layer at hb
  cases hl : h.layers[s.id]? with
  | none =>
    rw [hl] at hb
    cases hb
  | some l =>
    rw [hl] at hb
    exact (hclosed.layers l (Array.mem_of_getElem? hl)).1 b hb

theorem closure (r : ClosureRef) :
    h.HasCode (h.closure r).pattern ∧ h.HasCode (h.closure r).body := by
  unfold Heap.closure
  cases hc : h.closures[r.id]? with
  | none => exact ⟨.value (.atom _), .value (.atom _)⟩
  | some c =>
    obtain ⟨hpattern, hbody, -⟩ := hclosed.closures c (Array.mem_of_getElem? hc)
    exact ⟨hpattern, hbody⟩

end Closed

theorem HasValue.within (hwithin : h.Within h') {v : Value} (hv : h.HasValue v) : h'.HasValue v := by
  induction hv with
  | atom a => exact .atom a
  | tuple _ ih => exact .tuple ih
  | list hr => exact .list (hr.trans_le hwithin.lists)
  | dict hr => exact .dict (hr.trans_le hwithin.dicts)
  | set hr => exact .set (hr.trans_le hwithin.sets)
  | builtin b => exact .builtin b
  | closure hr => exact .closure (hr.trans_le hwithin.closures)

theorem HasScope.within (hwithin : h.Within h') {s : ScopeRef} (hs : h.HasScope s) : h'.HasScope s :=
  Nat.lt_of_lt_of_le hs hwithin.layers

theorem closed_ranked (rank : Datum → Nat) : Heap.Closed { Heap.initial with rank } := by
  constructor
  · exact Nat.one_pos
  · simp [Heap.initial]
  · simp [Heap.initial]
  · simp [Heap.initial]
  · simp [Heap.initial]
  · intro l hl
    obtain rfl := List.mem_singleton.mp (Array.mem_def.mp hl)
    constructor
    · intro b hb
      obtain ⟨x, -, rfl⟩ := List.mem_map.mp hb
      exact .builtin x
    · intro s hs
      cases hs

theorem closed_initial : Heap.initial.Closed := closed_ranked _

mutual

theorem hasCode_ofExpr (h : Heap) (e : Expr) : h.HasCode (.ofExpr e) := by
  match e with
  | .atom a => exact .value (.atom a)
  | .form es => exact .form (hasCode_ofExprs h es)

theorem hasCode_ofExprs (h : Heap) (es : List Expr) : ∀ c ∈ Code.ofExprs es, h.HasCode c := by
  match es with
  | [] => exact List.forall_mem_nil _
  | e :: es => exact List.forall_mem_cons.mpr ⟨hasCode_ofExpr h e, hasCode_ofExprs h es⟩

end

end Heap

namespace Renaming

/-- The renamings agree on the objects of a heap. -/
structure Agree (ρ ρ' : Renaming) (h : Heap) : Prop where
  lists : ∀ i < h.lists.size, ρ'.lists i = ρ.lists i
  dicts : ∀ i < h.dicts.size, ρ'.dicts i = ρ.dicts i
  sets : ∀ i < h.sets.size, ρ'.sets i = ρ.sets i
  closures : ∀ i < h.closures.size, ρ'.closures i = ρ.closures i
  layers : ∀ i < h.layers.size, ρ'.layers i = ρ.layers i

namespace Agree

variable {ρ ρ' ρ'' : Renaming} {h h' : Heap}

theorem refl (ρ : Renaming) (h : Heap) : Agree ρ ρ h :=
  ⟨fun _ _ => rfl, fun _ _ => rfl, fun _ _ => rfl, fun _ _ => rfl, fun _ _ => rfl⟩

theorem trans (hagree : Agree ρ ρ' h) (hagree' : Agree ρ' ρ'' h') (hwithin : h.Within h') :
    Agree ρ ρ'' h where
  lists i hi := (hagree'.lists i (hi.trans_le hwithin.lists)).trans (hagree.lists i hi)
  dicts i hi := (hagree'.dicts i (hi.trans_le hwithin.dicts)).trans (hagree.dicts i hi)
  sets i hi := (hagree'.sets i (hi.trans_le hwithin.sets)).trans (hagree.sets i hi)
  closures i hi := (hagree'.closures i (hi.trans_le hwithin.closures)).trans (hagree.closures i hi)
  layers i hi := (hagree'.layers i (hi.trans_le hwithin.layers)).trans (hagree.layers i hi)

section

variable (hagree : Agree ρ ρ' h)
include hagree

theorem value {v : Value} (hv : h.HasValue v) : ρ'.value v = ρ.value v := by
  induction hv with
  | atom a => rfl
  | tuple _ ih => rw [value_tuple, value_tuple, List.map_congr_left ih]
  | list hr => exact congrArg (fun i => Value.list ⟨i⟩) (hagree.lists _ hr)
  | dict hr => exact congrArg (fun i => Value.dict ⟨i⟩) (hagree.dicts _ hr)
  | set hr => exact congrArg (fun i => Value.set ⟨i⟩) (hagree.sets _ hr)
  | builtin b => rfl
  | closure hr => exact congrArg (fun i => Value.closure ⟨i⟩) (hagree.closures _ hr)

theorem scope {s : ScopeRef} (hs : h.HasScope s) : ρ'.scope s = ρ.scope s :=
  congrArg ScopeRef.mk (hagree.layers _ hs)

theorem code {c : Code} (hc : h.HasCode c) : ρ'.code c = ρ.code c := by
  induction hc with
  | value hv => exact congrArg Code.value (hagree.value hv)
  | form _ ih => rw [code_form, code_form, List.map_congr_left ih]
  | slot hr i => exact congrArg (fun r => Code.slot ⟨r⟩ i) (hagree.lists _ hr)

theorem values {vs : List Value} (hvs : ∀ v ∈ vs, h.HasValue v) : vs.map ρ'.value = vs.map ρ.value :=
  List.map_congr_left fun v hv => hagree.value (hvs v hv)

variable (hclosed : h.Closed)
include hclosed

theorem cell {c : ListCell} (hc : c ∈ h.lists) : ρ'.cell c = ρ.cell c := by
  unfold Renaming.cell
  congr 1
  exact Array.map_congr_left fun v hv => hagree.value (hclosed.lists c hc v hv)

theorem entries {es : List (Value × Value)} (hes : es ∈ h.dicts) : es.map ρ'.entry = es.map ρ.entry := by
  refine List.map_congr_left fun e he => ?_
  obtain ⟨hkey, hvalue⟩ := hclosed.dicts es hes e he
  rw [entry, entry, hagree.value hkey, hagree.value hvalue]

theorem function {c : Closure} (hc : c ∈ h.closures) : ρ'.function c = ρ.function c := by
  obtain ⟨hpattern, hbody, hscope⟩ := hclosed.closures c hc
  rw [Renaming.function, Renaming.function, hagree.code hpattern, hagree.code hbody,
    hagree.scope hscope]

theorem layer {l : Layer} (hl : l ∈ h.layers) : ρ'.layer l = ρ.layer l := by
  obtain ⟨hbindings, hbase⟩ := hclosed.layers l hl
  have hmap : l.bindings.map ρ'.binding = l.bindings.map ρ.binding := by
    refine List.map_congr_left fun b hb => ?_
    rw [binding, binding, hagree.value (hbindings b hb)]
  have hscope : l.base.map ρ'.scope = l.base.map ρ.scope :=
    Option.map_congr fun s hs => hagree.scope (hbase s hs)
  rw [Renaming.layer, Renaming.layer, hmap, hscope]

end

end Agree

/-- The objects of the heap keep their numbers and no others do. -/
def beyond (h : Heap) : Renaming where
  lists i := if i < h.lists.size then i else i + 1
  dicts i := if i < h.dicts.size then i else i + 1
  sets i := if i < h.sets.size then i else i + 1
  closures i := if i < h.closures.size then i else i + 1
  layers i := if i < h.layers.size then i else i + 1

theorem lt_of_beyond {n i : Nat} (hi : (if i < n then i else i + 1) = i) : i < n := by
  split at hi
  · assumption
  · exact absurd hi (Nat.succ_ne_self i)

theorem strictMono_beyond (n : Nat) : StrictMono fun i => if i < n then i else i + 1 := by
  intro i j hij
  dsimp only
  split <;> split <;> omega

/-- No renaming. -/
def same : Renaming := ⟨id, id, id, id, id⟩

mutual

theorem value_same (v : Value) : same.value v = v := by
  match v with
  | .atom a => rfl
  | .tuple vs => exact congrArg Value.tuple (values_same vs)
  | .list r => rfl
  | .dict r => rfl
  | .set r => rfl
  | .builtin b => rfl
  | .closure r => rfl

theorem values_same (vs : List Value) : same.values vs = vs := by
  match vs with
  | [] => rfl
  | v :: vs => rw [values, value_same v, values_same vs]

end

mutual

theorem code_same (c : Code) : same.code c = c := by
  match c with
  | .value v => exact congrArg Code.value (value_same v)
  | .form cs => exact congrArg Code.form (codes_same cs)
  | .slot r i => rfl

theorem codes_same (cs : List Code) : same.codes cs = cs := by
  match cs with
  | [] => rfl
  | c :: cs => rw [codes, code_same c, codes_same cs]

end

theorem entry_same : same.entry = id := by
  funext e
  rw [entry, value_same, value_same]
  rfl

theorem binding_same : same.binding = id := by
  funext b
  rw [binding, value_same]
  rfl

theorem cell_same (c : ListCell) : same.cell c = c := by
  have hvalue : same.value = id := funext value_same
  rw [cell, hvalue, Array.map_id]

theorem function_same (c : Closure) : same.function c = c := by
  rw [function, code_same, code_same]
  rfl

theorem layer_same (l : Layer) : same.layer l = l := by
  have hscope : same.scope = id := rfl
  rw [layer, binding_same, hscope, List.map_id, Option.map_id]
  rfl

theorem agree_beyond (h : Heap) : Agree same (beyond h) h where
  lists _ hi := if_pos hi
  dicts _ hi := if_pos hi
  sets _ hi := if_pos hi
  closures _ hi := if_pos hi
  layers _ hi := if_pos hi

variable {h : Heap}

mutual

theorem hasValue_of_beyond {v : Value} (hv : (beyond h).value v = v) : h.HasValue v := by
  match v with
  | .atom a => exact .atom a
  | .tuple vs => exact .tuple (hasValues_of_beyond (Value.tuple.inj hv))
  | .list r => exact .list (lt_of_beyond (congrArg ListRef.id (Value.list.inj hv)))
  | .dict r => exact .dict (lt_of_beyond (congrArg DictRef.id (Value.dict.inj hv)))
  | .set r => exact .set (lt_of_beyond (congrArg SetRef.id (Value.set.inj hv)))
  | .builtin b => exact .builtin b
  | .closure r => exact .closure (lt_of_beyond (congrArg ClosureRef.id (Value.closure.inj hv)))

theorem hasValues_of_beyond {vs : List Value} (hvs : (beyond h).values vs = vs) :
    ∀ v ∈ vs, h.HasValue v := by
  match vs with
  | [] => exact List.forall_mem_nil _
  | v :: vs =>
    obtain ⟨hv, hvs⟩ := List.cons.inj hvs
    exact List.forall_mem_cons.mpr ⟨hasValue_of_beyond hv, hasValues_of_beyond hvs⟩

end

mutual

theorem hasCode_of_beyond {c : Code} (hc : (beyond h).code c = c) : h.HasCode c := by
  match c with
  | .value v => exact .value (hasValue_of_beyond (Code.value.inj hc))
  | .form cs => exact .form (hasCodes_of_beyond (Code.form.inj hc))
  | .slot r i => exact .slot (lt_of_beyond (congrArg ListRef.id (Code.slot.inj hc).1)) i

theorem hasCodes_of_beyond {cs : List Code} (hcs : (beyond h).codes cs = cs) :
    ∀ c ∈ cs, h.HasCode c := by
  match cs with
  | [] => exact List.forall_mem_nil _
  | c :: cs =>
    obtain ⟨hc, hcs⟩ := List.cons.inj hcs
    exact List.forall_mem_cons.mpr ⟨hasCode_of_beyond hc, hasCodes_of_beyond hcs⟩

end

theorem hasScope_of_beyond {s : ScopeRef} (hs : (beyond h).scope s = s) : h.HasScope s :=
  lt_of_beyond (congrArg ScopeRef.id hs)

end Renaming

namespace Heap

open Renaming

variable {h final : Heap}

theorem image_beyond (hclosed : h.Closed) (hwithin : h.Within final) :
    Image (beyond final) final h h h := by
  have hagree : Agree same (beyond final) h := by
    have hfinal := agree_beyond final
    exact ⟨fun i hi => hfinal.lists i (hi.trans_le hwithin.lists),
      fun i hi => hfinal.dicts i (hi.trans_le hwithin.dicts),
      fun i hi => hfinal.sets i (hi.trans_le hwithin.sets),
      fun i hi => hfinal.closures i (hi.trans_le hwithin.closures),
      fun i hi => hfinal.layers i (hi.trans_le hwithin.layers)⟩
  have hembeds {α : Type} {f : α → α} {as : Array α} {n : Nat} (hn : as.size ≤ n)
      (hf : ∀ a ∈ as, f a = a) :
      Embeds (fun i => if i < n then i else i + 1) f n as as as := by
    refine ⟨fun i => ?_, fun j hj => if_pos hj, fun _ _ => rfl, le_rfl⟩
    by_cases hi : i < as.size
    · rw [if_pos (hi.trans_le hn), Array.getElem?_eq_getElem hi, Option.map_some,
        hf _ (Array.getElem_mem hi)]
    · have hlarge : as.size ≤ if i < n then i else i + 1 := by
        split <;> omega
      rw [Array.getElem?_eq_none hlarge, Array.getElem?_eq_none (Nat.le_of_not_lt hi), Option.map_none]
  constructor
  · constructor
    · exact strictMono_beyond _
    · exact strictMono_beyond _
    · exact strictMono_beyond _
    · exact strictMono_beyond _
    · exact strictMono_beyond _
    · exact hagree.scope hclosed.builtins
  · exact hembeds hwithin.lists fun c hc => (hagree.cell hclosed hc).trans (cell_same c)
  · refine hembeds hwithin.dicts fun es hes => (hagree.entries hclosed hes).trans ?_
    rw [entry_same, List.map_id]
  · refine hembeds hwithin.sets fun vs hvs => (hagree.values (hclosed.sets vs hvs)).trans ?_
    rw [funext value_same]
    exact List.map_id vs
  · exact hembeds hwithin.closures fun c hc => (hagree.function hclosed hc).trans (function_same c)
  · exact hembeds hwithin.layers fun l hl => (hagree.layer hclosed hl).trans (layer_same l)
  · rfl
  · intro d hd
    rw [max_eq_right hwithin.closures] at hd
    exact congrArg h.rank hd

theorem closed_of_image {old : Heap} (himage : Image (beyond h) h old h h)
    (hbuiltins : h.HasScope builtinScope) : h.Closed := by
  have hfixed {α : Type} {f : α → α} {limit : Nat} {old as : Array α}
      (hembeds : Embeds (fun i => if i < as.size then i else i + 1) f limit old as as) :
      ∀ a ∈ as, f a = a := by
    intro a ha
    obtain ⟨i, hi, rfl⟩ := Array.mem_iff_getElem.mp ha
    have hcopy := hembeds.copy i
    rw [if_pos hi, Array.getElem?_eq_getElem hi, Option.map_some] at hcopy
    exact (Option.some.inj hcopy).symm
  have helems {α : Type} {f : α → α} {as : List α} (has : as.map f = as) : ∀ a ∈ as, f a = a :=
    List.map_eq_map_iff.mp (has.trans (List.map_id as).symm)
  constructor
  · exact hbuiltins
  · intro c hc v hv
    have hcell := congrArg ListCell.slots (hfixed himage.lists c hc)
    obtain ⟨i, hi, rfl⟩ := Array.mem_iff_getElem.mp hv
    apply hasValue_of_beyond
    have hslot := congrArg (·[i]?) hcell
    simpa [Renaming.cell, hi] using hslot
  · intro es hes e he
    have hentry := helems (hfixed himage.dicts es hes) e he
    exact ⟨hasValue_of_beyond (congrArg Prod.fst hentry), hasValue_of_beyond (congrArg Prod.snd hentry)⟩
  · intro vs hvs v hv
    exact hasValue_of_beyond (helems (hfixed himage.sets vs hvs) v hv)
  · intro c hc
    have hfunction := hfixed himage.closures c hc
    exact ⟨hasCode_of_beyond (congrArg Closure.pattern hfunction),
      hasCode_of_beyond (congrArg Closure.body hfunction),
      hasScope_of_beyond (congrArg Closure.scope hfunction)⟩
  · intro l hl
    have hlayer := hfixed himage.layers l hl
    constructor
    · intro b hb
      have hbinding := helems (congrArg Layer.bindings hlayer) b hb
      exact hasValue_of_beyond (congrArg Prod.snd hbinding)
    · intro s hs
      have hbase := congrArg Layer.base hlayer
      rw [Renaming.layer, hs] at hbase
      exact hasScope_of_beyond (Option.some.inj hbase)

theorem image_same (final h : Heap) : Image .same final h h h := by
  have hembeds {α : Type} {f : α → α} {limit : Nat} {as : Array α} (hf : ∀ a, f a = a) :
      Embeds id f limit as as as := by
    refine ⟨fun i => ?_, fun _ _ => rfl, fun _ _ => rfl, le_rfl⟩
    rw [id, funext hf]
    exact (Option.map_id_apply).symm
  constructor
  · exact ⟨strictMono_id, strictMono_id, strictMono_id, strictMono_id, strictMono_id, rfl⟩
  · exact hembeds cell_same
  · refine hembeds fun es => ?_
    rw [entry_same, List.map_id]
  · refine hembeds fun vs => ?_
    rw [funext value_same]
    exact List.map_id vs
  · exact hembeds function_same
  · exact hembeds layer_same
  · rfl
  · exact fun d _ => congrArg h.rank d.rename_id

theorem eq_of_image_same {h' old : Heap} (himage : Image .same final old h h')
    (hrank : h'.rank = h.rank) : h' = h := by
  have heq {α : Type} {f : α → α} {limit : Nat} {old bs as : Array α} (hf : ∀ a, f a = a)
      (hembeds : Embeds id f limit old bs as) : as = bs := by
    refine Array.ext_getElem? fun i => ?_
    have hcopy := hembeds.copy i
    rw [id, funext hf] at hcopy
    exact hcopy.trans Option.map_id_apply
  have hlists := heq cell_same himage.lists
  have hdicts := heq (fun es => by rw [entry_same, List.map_id]) himage.dicts
  have hsets := heq (fun vs => by rw [funext value_same]; exact List.map_id vs) himage.sets
  have hclosures := heq function_same himage.closures
  have hlayers := heq layer_same himage.layers
  cases h
  cases h'
  simp_all

end Heap

end EventTally
