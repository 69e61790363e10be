import EventTally.Proofs.Datum.Order
import EventTally.Proofs.Eval.Matching
import EventTally.Proofs.Eval.Trees
import EventTally.Proofs.Eval.Yields
import EventTally.Proofs.Heap.Members
import EventTally.Proofs.Renaming.Closed
import EventTally.Proofs.Source.Spread

/-! # Sequences of elements

A literal of a list, tuple or set means a sequence: of the values of its plain elements and of the
elements of the values of its spread ones (`EvalM.concatenation`). The tree that the literal is read as
does that for elements that stand for the same (`EvalM.yields_desugar`).

If parts of a sequence are made sets of first, members that come again are missing from it
(`EvalM.Condenses`), and the others come in another order. The same set is made of it where equality is
transitive and equal members have one hash (`EvalM.Condenses.collects`).
-/

namespace EventTally

namespace Renaming

variable (ρ : Renaming)

mutual

theorem hashable_value (v : Value) : (ρ.value v).hashable = v.hashable := by
  match v with
  | .tuple vs =>
    rw [value, Value.hashable, Value.hashable]
    exact allHashable_values vs
  | .atom _ | .list _ | .dict _ | .set _ | .builtin _ | .closure _ => rfl

theorem allHashable_values (vs : List Value) :
    Value.allHashable (ρ.values vs) = Value.allHashable vs := by
  match vs with
  | [] => rfl
  | v :: vs =>
    rw [values, Value.allHashable, Value.allHashable, hashable_value v, allHashable_values vs]

end

theorem forall_hashable_iff {vs : List Value} :
    (∀ v ∈ vs.map ρ.value, v.hashable = true) ↔ ∀ v ∈ vs, v.hashable = true := by
  rw [List.forall_mem_map]
  exact forall₂_congr fun v _ => by rw [ρ.hashable_value]

end Renaming

/-- The collections whose literals are sequences of elements: all but dicts. -/
inductive Series where
  | list
  | tuple
  | set
  deriving DecidableEq, Repr

namespace Series

def bracket : Series → Bracket
  | .list => .list
  | .tuple => .tuple
  | .set => .set

def make : Series → StrictOp
  | .list => .list
  | .tuple => .tuple
  | .set => .set

/-- The builtin that makes a collection of the elements of its arguments. -/
def into : Series → StrictOp
  | .list => .intoList
  | .tuple => .intoTuple
  | .set => .intoSet

end Series

namespace Heap

/-- What an element gives: its value or, if it is spread, the elements of its value. -/
def share (h : Heap) (i : Item) (v : Value) : Except Reason (List Value) :=
  if i.spread then h.iterate v else .ok [v]

/-- The sequence that several elements give. -/
def sequence (h : Heap) : List Item → List Value → Except Reason (List Value)
  | i :: items, v :: vs => do
    let elems ← h.share i v
    return elems ++ (← h.sequence items vs)
  | _, _ => .ok []

end Heap

namespace EvalM

/-- Evaluates the expressions of all elements from left to right. -/
def evalItems (items : List Item) (s : ScopeRef) (r : Recursor) : EvalM (List Value) :=
  evalAll r s (Code.ofExprs (Item.exprs items))

/-- Evaluates the expressions of all elements from left to right, then replaces each plain element by its
value and each spread one by the elements of its value, and makes a collection of that sequence. -/
def concatenation (k : Series) (items : List Item) (s : ScopeRef) (r : Recursor) : EvalM Value := do
  let vs ← evalItems items s r
  let h ← heap
  applyStrict k.make (← ofExcept (h.sequence items vs))

section

variable {k : Series} {items : List Item} {s : ScopeRef} {w w₁ w₂ : World} {v : Value}

theorem patient_evalItems (items : List Item) (s : ScopeRef) : Patient (evalItems items s) :=
  patient_evalAll s _

theorem length_of_evalItems {vs : List Value} (h : Yields (evalItems items s) w vs w₁) :
    vs.length = items.length := by
  have hlength := length_of_yields h
  rwa [Code.ofExprs_eq_map, List.length_map, Item.exprs, List.length_map] at hlength

theorem yields_concatenation : Yields (concatenation k items s) w v w₁ ↔ ∃ vs w₀ elems,
    Yields (evalItems items s) w vs w₀ ∧ w₀.heap.sequence items vs = .ok elems ∧
      (applyStrict k.make elems).run w₀ = (.ok v, w₁) := by
  refine (yields_bind_const (patient_evalItems items s)).trans ?_
  refine exists_congr fun vs => exists_congr fun w₀ => ?_
  have hrun : ExceptT.run (do
      let h ← heap
      applyStrict k.make (← ofExcept (h.sequence items vs))) w₀ =
      (ofExcept (w₀.heap.sequence items vs) >>= applyStrict k.make).run w₀ := rfl
  rw [hrun]
  cases w₀.heap.sequence items vs with
  | error r =>
    refine ⟨fun h => ?_, fun ⟨_, _, h, _⟩ => ?_⟩
    · cases h.2
    · cases h
  | ok elems =>
    refine ⟨fun h => ⟨elems, h.1, rfl, h.2⟩, ?_⟩
    rintro ⟨_, hvs, ⟨⟩, h⟩
    exact ⟨hvs, h⟩

theorem yields_call {name : String} {op : StrictOp}
    (h : w.heap.lookup s name = some (.builtin (.strict op))) (harity : op.arity = (0, -1))
    (es : List Expr) : Yields (·.eval (.ofExpr (.tagged name es)) s) w v w₁ ↔ ∃ vs w₀,
      Yields (fun r => evalAll r s (Code.ofExprs es)) w vs w₀ ∧
        (applyStrict op vs).run w₀ = (.ok v, w₁) := by
  have hcall (n : Nat) : ((recursor (n + 2)).eval (.ofExpr (.tagged name es)) s).run w = (.ok v, w₁) ↔
      (evalAll (recursor (n + 1)) s (Code.ofExprs es) >>= applyStrict op).run w = (.ok v, w₁) := by
    have hopen : callBuiltin (recursor (n + 1)) (.strict op) (Code.ofExprs es) s =
        evalAll (recursor (n + 1)) s (Code.ofExprs es) >>= applyStrict op := by
      have hcheck : checkArity (Code.ofExprs es) op.arity.1 op.arity.2 = pure () := by
        rw [harity]
        unfold checkArity
        exact if_neg (by simp)
      change (checkArity _ _ _ >>= fun _ => _) = _
      rw [hcheck, pure_bind]
    change ((recursor (n + 2)).eval (.form (.sym name :: Code.ofExprs es)) s).run w = _ ↔ _
    rw [run_eval_builtin h, hopen, run_withFrame]
    rcases (evalAll (recursor (n + 1)) s (Code.ofExprs es) >>= applyStrict op).run w with ⟨f | u, w'⟩
    · exact iff_of_false nofun nofun
    · rfl
  rw [← yields_bind_const (patient_evalAll s _)]
  constructor
  · rintro ⟨n, hn⟩
    have hmore := (patient_eval _ s).run_eq (Nat.le_add_right n 2) hn
    exact ⟨n + 1, (hcall n).mp hmore⟩
  · rintro ⟨n, hn⟩
    have hpatient : Patient fun r => evalAll r s (Code.ofExprs es) >>= applyStrict op :=
      (patient_evalAll s _).bind fun vs => patient_const _
    exact ⟨n + 2, (hcall n).mpr (hpatient.run_eq (Nat.le_succ n) hn)⟩

theorem sequence_plain (h : Heap) {es : List Expr} {vs : List Value} (hlength : vs.length = es.length) :
    h.sequence (es.map .plain) vs = .ok vs := by
  induction es generalizing vs with
  | nil => rw [List.eq_nil_of_length_eq_zero hlength, List.map_nil, Heap.sequence]; simp
  | cons e es ih =>
    obtain ⟨v, vs, rfl⟩ := List.exists_cons_of_length_eq_add_one hlength
    rw [List.map_cons, Heap.sequence, ih (Nat.succ.inj hlength)]
    rfl

theorem run_collect {es : List Expr} {vs : List Value} (hlength : vs.length = es.length) :
    (collect vs).run w = (ofExcept (w.heap.sequence (es.map .spreading) vs)).run w := by
  induction es generalizing vs with
  | nil =>
    obtain rfl := List.eq_nil_of_length_eq_zero hlength
    rfl
  | cons e es ih =>
    obtain ⟨v, vs, rfl⟩ := List.exists_cons_of_length_eq_add_one hlength
    have hopen : (collect (v :: vs)).run w = (ofExcept (w.heap.iterate v) >>= fun elems =>
        collect vs >>= fun rest => pure (elems ++ rest)).run w := rfl
    have hspread : w.heap.sequence ((e :: es).map .spreading) (v :: vs) =
        (w.heap.iterate v >>= fun elems =>
          w.heap.sequence (es.map .spreading) vs >>= fun rest => .ok (elems ++ rest)) := rfl
    rw [hopen, hspread]
    cases w.heap.iterate v with
    | error r => rfl
    | ok elems =>
      change (collect vs >>= fun rest => pure (elems ++ rest)).run w = _
      rw [run_bind, ih (Nat.succ.inj hlength)]
      cases w.heap.sequence (es.map .spreading) vs <;> rfl

/-- The tree of a literal makes a collection of elements that stand for the same. -/
theorem yields_desugar (k : Series) (items : List Item) :
    ∃ items', k.bracket.flat items' = k.bracket.flat items ∧
      ∀ {s w v w₁}, w.heap.lookup s k.bracket.tag = some (.builtin (.strict k.make)) →
        w.heap.lookup s k.bracket.intoTag = some (.builtin (.strict k.into)) →
        (Yields (·.eval (.ofExpr (k.bracket.desugar items)) s) w v w₁ ↔
          Yields (concatenation k items' s) w v w₁) := by
  obtain ⟨es, ⟨htree, hflat⟩ | ⟨htree, hflat⟩⟩ := Bracket.desugar_cases (b := k.bracket) items
  · refine ⟨es.map .plain, hflat.symm, fun {s w v w₁} hmake _ => ?_⟩
    rw [htree, yields_call hmake (by cases k <;> rfl), yields_concatenation]
    have hitems : evalItems (es.map .plain) s = fun r => evalAll r s (Code.ofExprs es) := by
      unfold evalItems
      rw [Item.exprs_plain]
    refine exists_congr fun vs => exists_congr fun w₀ => ?_
    rw [← hitems]
    have hsequence (hvs : Yields (evalItems (es.map .plain) s) w vs w₀) :
        w₀.heap.sequence (es.map .plain) vs = .ok vs :=
      sequence_plain _ ((length_of_evalItems hvs).trans (List.length_map _))
    constructor
    · rintro ⟨hvs, hrun⟩
      exact ⟨vs, hvs, hsequence hvs, hrun⟩
    · rintro ⟨elems, hvs, helems, hrun⟩
      rw [hsequence hvs] at helems
      cases helems
      exact ⟨hvs, hrun⟩
  · refine ⟨es.map .spreading, hflat.symm, fun {s w v w₁} _ hinto => ?_⟩
    have hop (vs : List Value) : applyStrict k.into vs = collect vs >>= applyStrict k.make := by
      cases k <;> rfl
    rw [htree, yields_call hinto (by cases k <;> rfl), yields_concatenation]
    have hitems : evalItems (es.map .spreading) s = fun r => evalAll r s (Code.ofExprs es) := by
      unfold evalItems
      rw [Item.exprs_spreading]
    refine exists_congr fun vs => exists_congr fun w₀ => ?_
    rw [← hitems]
    have hcollect (hvs : Yields (evalItems (es.map .spreading) s) w vs w₀) : (collect vs).run w₀ =
        (ofExcept (w₀.heap.sequence (es.map .spreading) vs)).run w₀ :=
      run_collect ((length_of_evalItems hvs).trans (List.length_map _))
    constructor
    · rintro ⟨hvs, hrun⟩
      rw [hop, run_bind, hcollect hvs] at hrun
      cases helems : w₀.heap.sequence (es.map .spreading) vs with
      | error r =>
        rw [helems] at hrun
        cases hrun
      | ok elems =>
        rw [helems] at hrun
        exact ⟨elems, hvs, rfl, hrun⟩
    · rintro ⟨elems, hvs, helems, hrun⟩
      refine ⟨hvs, ?_⟩
      rw [hop, run_bind, hcollect hvs, helems]
      exact hrun

end

section

variable {w w₁ : World} {v : Value} {vs : List Value}

theorem run_makeSet_eq : (makeSet vs).run w =
    (ofExcept (vs.foldlM (fun acc v => w.heap.insertMember v acc) []) >>= newSet).run w := by
  unfold makeSet
  exact run_heap_bind fun h => ofExcept (vs.foldlM (fun acc v => h.insertMember v acc) []) >>= newSet

theorem run_makeSet (hvs : ∀ v ∈ vs, v.hashable = true) : (makeSet vs).run w =
    (newSet (Keyed.insertElems Value.sameKey [] vs)).run w := by
  rw [run_makeSet_eq, w.heap.insertMembers_eq (List.forall_mem_nil _) hvs]
  rfl

theorem hashable_of_makeSet (h : (makeSet vs).run w = (.ok v, w₁)) : ∀ v ∈ vs, v.hashable = true := by
  cases hins : vs.foldlM (fun acc v => w.heap.insertMember v acc) [] with
  | error r =>
    rw [run_makeSet_eq, hins] at h
    cases h
  | ok members => exact w.heap.hashable_of_insertMembers hins

theorem make_succeeds_iff (k : Series) : (∃ v w₁, (applyStrict k.make vs).run w = (.ok v, w₁)) ↔
    (k = .set → ∀ v ∈ vs, v.hashable = true) := by
  cases k with
  | list => exact ⟨fun _ h => absurd h (by decide), fun _ => ⟨_, _, rfl⟩⟩
  | tuple => exact ⟨fun _ h => absurd h (by decide), fun _ => ⟨_, _, rfl⟩⟩
  | set =>
    refine ⟨fun ⟨v, w₁, hrun⟩ _ => hashable_of_makeSet hrun, fun hvs => ?_⟩
    exact ⟨_, _, run_makeSet (hvs rfl)⟩

end

/-- Some parts of the sequence have been made sets of first, if a set is made of it. -/
structure Condenses (k : Series) (xs xs' : List Value) : Prop where
  parts : Keyed.Condenses Value.sameKey (·.hashable = true) xs xs'
  eq_of_ne : k ≠ .set → xs' = xs

namespace Condenses

variable {k : Series} {xs xs' ys ys' : List Value}

theorem same (k : Series) (vs : List Value) : Condenses k vs vs := ⟨.same vs, fun _ => rfl⟩

theorem append (hx : Condenses k xs xs') (hy : Condenses k ys ys') :
    Condenses k (xs ++ ys) (xs' ++ ys') :=
  ⟨.append hx.parts hy.parts, fun hk => by rw [hx.eq_of_ne hk, hy.eq_of_ne hk]⟩

theorem hashable_iff (h : Condenses k xs xs') :
    (∀ v ∈ xs', v.hashable = true) ↔ ∀ v ∈ xs, v.hashable = true := h.parts.forall_iff

end Condenses

/-- `v` is a collection of the values: a set has those that no later equal one replaces, in any order. -/
inductive Collects (h : Heap) (vs : List Value) : Series → Value → Prop
  | list {r : ListRef} (hr : h.elems r = vs) : Collects h vs .list (.list r)
  | tuple : Collects h vs .tuple (.tuple vs)
  | set {r : SetRef} (hr : (h.members r).Perm (Keyed.insertElems h.equal [] vs)) :
      Collects h vs .set (.set r)

section

variable {h : Heap} {vs : List Value} (hhash : ∀ v ∈ vs, v.hashable = true)
  (hcoheres : Datum.Coheres (vs.map h.datum))
include hhash hcoheres

theorem equal_eq_sameKey : ∀ a ∈ vs, ∀ b ∈ vs, h.equal a b = a.sameKey b := by
  intro a ha b hb
  rw [← h.sameKey_eq (hhash a ha) (hhash b hb)]
  exact (hcoheres.sameKey_eq (List.mem_map_of_mem ha) (List.mem_map_of_mem hb)).symm

theorem coherent_sameKey : Keyed.Coherent Value.sameKey (· ∈ vs) := by
  have hequal := equal_eq_sameKey hhash hcoheres
  constructor
  · intro a b ha hb hab
    rw [← hequal a ha b hb] at hab
    rw [← hequal b hb a ha]
    exact Datum.equal_symm ((h.hashable_eq a).trans (hhash a ha)) hab
  · intro a b c ha hb hc hab hbc
    rw [← hequal a ha b hb] at hab
    rw [← hequal b hb c hc] at hbc
    rw [← hequal a ha c hc]
    exact hcoheres.trans _ (List.mem_map_of_mem ha) _ (List.mem_map_of_mem hb) _
      (List.mem_map_of_mem hc) hab hbc

end

/-- A collection of what has been made of a sequence is one of the sequence. -/
theorem Condenses.collects {k : Series} {w w₁ : World} {v : Value} {xs xs' : List Value}
    (h : Condenses k xs xs') (hcoheres : k = .set → Datum.Coheres (xs.map w₁.heap.datum))
    (hmake : (applyStrict k.make xs').run w = (.ok v, w₁)) : Collects w₁.heap xs k v := by
  cases k with
  | list =>
    obtain rfl := h.eq_of_ne (by decide)
    obtain ⟨heq, rfl⟩ := Prod.mk.inj hmake
    cases heq
    exact .list (Heap.elems_of_cell Array.getElem?_push_size)
  | tuple =>
    obtain rfl := h.eq_of_ne (by decide)
    obtain ⟨heq, rfl⟩ := Prod.mk.inj hmake
    cases heq
    exact .tuple
  | set =>
    have hhash' := hashable_of_makeSet hmake
    have hhash := h.hashable_iff.mp hhash'
    have hcoheres := hcoheres rfl
    change (makeSet xs').run w = _ at hmake
    rw [run_makeSet hhash'] at hmake
    obtain ⟨heq, rfl⟩ := Prod.mk.inj hmake
    cases heq
    refine .set ?_
    rw [Keyed.insertElems_congr (equal_eq_sameKey hhash hcoheres), Heap.members,
      show _ = some _ from Array.getElem?_push_size, Option.getD_some]
    exact h.parts.perm_insertElems (coherent_sameKey hhash hcoheres) (fun _ hv => hv)
      (List.forall_mem_nil _) .nil

section

variable {h : Heap} {items : List Item} {vs : List Value}

theorem sequence_plain_append (es : List Expr) (vs' : List Value) (hlength : vs.length = es.length) :
    h.sequence (es.map .plain ++ items) (vs ++ vs') =
      (h.sequence items vs').map (vs ++ ·) := by
  induction es generalizing vs with
  | nil =>
    obtain rfl := List.eq_nil_of_length_eq_zero hlength
    change h.sequence items vs' = _
    cases h.sequence items vs' <;> rfl
  | cons e es ih =>
    obtain ⟨v, vs, rfl⟩ := List.exists_cons_of_length_eq_add_one hlength
    rw [List.map_cons, List.cons_append, List.cons_append, Heap.sequence, ih (Nat.succ.inj hlength)]
    cases h.sequence items vs' <;> rfl

theorem mem_sequence {elems : List Value} (hlength : vs.length = items.length)
    (h : h.sequence items vs = .ok elems) {p : Item × Value} (hp : p ∈ items.zip vs)
    (hplain : p.1.spread = false) : p.2 ∈ elems := by
  induction items generalizing vs elems with
  | nil => cases hp
  | cons i items ih =>
    obtain ⟨v, vs, rfl⟩ := List.exists_cons_of_length_eq_add_one hlength
    obtain ⟨share, hshare, h⟩ := Codec.bind_eq_ok h
    obtain ⟨rest, hrest, h⟩ := Codec.bind_eq_ok h
    cases h
    obtain rfl | hp := List.mem_cons.mp hp
    · rw [Heap.share, if_neg (by rw [hplain]; exact Bool.false_ne_true)] at hshare
      cases hshare
      exact List.mem_cons_self
    · exact List.mem_append_right _ (ih (Nat.succ.inj hlength) hrest hp)

end

theorem hasValue_iterate {h : Heap} (hclosed : h.Closed) {v : Value} (hv : h.HasValue v)
    {elems : List Value} (helems : h.iterate v = .ok elems) : ∀ e ∈ elems, h.HasValue e := by
  cases hv with
  | atom a =>
    cases a with
    | str text =>
      cases helems
      intro e he
      obtain ⟨c, -, rfl⟩ := List.mem_map.mp he
      exact .atom _
    | _ => cases helems
  | tuple hvs =>
    cases helems
    exact hvs
  | @list r hr =>
    cases helems
    exact hclosed.elems r
  | @dict r hr =>
    cases helems
    intro e he
    obtain ⟨entry, hentry, rfl⟩ := List.mem_map.mp he
    obtain ⟨hkey, hvalue⟩ := hclosed.entries r entry (Keyed.mem_ranked.mp hentry)
    exact .tuple (List.forall_mem_cons.mpr ⟨hkey, List.forall_mem_singleton.mpr hvalue⟩)
  | @set r hr =>
    cases helems
    exact fun e he => hclosed.members r e (Keyed.mem_ranked.mp he)
  | builtin b => cases helems
  | closure hr => cases helems

theorem hasValue_sequence {h : Heap} (hclosed : h.Closed) {items : List Item} {vs : List Value}
    (hvs : ∀ v ∈ vs, h.HasValue v) {elems : List Value} (helems : h.sequence items vs = .ok elems) :
    ∀ e ∈ elems, h.HasValue e := by
  induction items generalizing vs elems with
  | nil =>
    cases helems
    exact List.forall_mem_nil _
  | cons i items ih =>
    cases vs with
    | nil =>
      cases helems
      exact List.forall_mem_nil _
    | cons v vs =>
      obtain ⟨hv, hvs⟩ := List.forall_mem_cons.mp hvs
      obtain ⟨share, hshare, helems⟩ := Codec.bind_eq_ok helems
      obtain ⟨rest, hrest, helems⟩ := Codec.bind_eq_ok helems
      cases helems
      refine List.forall_mem_append.mpr ⟨?_, ih hvs hrest⟩
      unfold Heap.share at hshare
      split at hshare
      · exact hasValue_iterate hclosed hv hshare
      · cases hshare
        exact List.forall_mem_singleton.mpr hv

end EvalM

end EventTally
