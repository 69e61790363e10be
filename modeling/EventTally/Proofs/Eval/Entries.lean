import EventTally.Proofs.Eval.Series
import EventTally.Proofs.Source.Pairing

/-! # Dicts that are made of pairs

A dict is made of its keys and values in turn (`EvalM.yields_evalEntries`) or of the pairs in collections
(`EvalM.run_intoDict`). Either way its pairs are added one after another, and each replaces the one whose
key is the same.
-/

namespace EventTally

namespace Keyed

variable {κ α : Type} {same : κ → κ → Bool} {P : κ → Prop}

theorem insert_eq_insertElem (same : κ → Bool) (e : κ × α) (es : List (κ × α)) :
    insert same e.1 e.2 es = insertElem (fun e' => same e'.1) e es := by
  induction es with
  | nil => rfl
  | cons e' es ih => rw [insert, insertElem, ih]

end Keyed

def Value.sameEntry (e e' : Value × Value) : Bool := e.1.sameKey e'.1

def pairUp : List Value → List (Value × Value)
  | k :: v :: vs => (k, v) :: pairUp vs
  | _ => []

namespace Heap

variable (h : Heap)

def pair? (v : Value) : Option (Value × Value) :=
  match h.iterate v with
  | .ok [k, w] => some (k, w)
  | _ => none

/-- The key-value pairs that a collection is made of, if it is made of such. -/
def pairsIn? (v : Value) : Option (List (Value × Value)) := (h.iterate v).toOption.bind (·.mapM h.pair?)

def allPairs? : List Value → Option (List (Value × Value))
  | [] => some []
  | v :: vs => do return (← h.pairsIn? v) ++ (← allPairs? vs)

/-- The key-value pairs that the elements of a dict literal give: two plain ones give a pair, a spread one
those in its value. -/
def pairs? : List Item → List Value → Option (List (Value × Value))
  | ⟨_, true⟩ :: items, v :: vs => do return (← h.pairsIn? v) ++ (← pairs? items vs)
  | ⟨_, false⟩ :: ⟨_, false⟩ :: items, k :: v :: vs => do return (k, v) :: (← pairs? items vs)
  | [], [] => some []
  | _, _ => none

variable {h} {items items' : List Item} {vs vs' : List Value} {ps : List (Value × Value)}

theorem pairs?_append (hps : h.pairs? items vs = some ps) :
    h.pairs? (items ++ items') (vs ++ vs') = (h.pairs? items' vs').map (ps ++ ·) := by
  fun_induction pairs? h items vs generalizing ps with
  | case1 e items v vs ih =>
    obtain ⟨qs, hqs, hps⟩ := Option.bind_eq_some_iff.mp hps
    obtain ⟨qs', hqs', heq⟩ := Option.bind_eq_some_iff.mp hps
    cases heq
    rw [List.cons_append, List.cons_append, pairs?, hqs, ih hqs']
    cases h.pairs? items' vs' with
    | none => rfl
    | some qs'' => exact congrArg some (List.append_assoc qs qs' qs'').symm
  | case2 e e' items k v vs ih =>
    obtain ⟨qs, hqs, heq⟩ := Option.bind_eq_some_iff.mp hps
    cases heq
    rw [List.cons_append, List.cons_append, List.cons_append, List.cons_append, pairs?, ih hqs]
    cases h.pairs? items' vs' <;> rfl
  | case3 =>
    cases hps
    exact Option.map_id'.symm
  | case4 => cases hps

theorem pairs?_plain {run : List Expr} (heven : Even run.length) {vs : List Value}
    (hlength : vs.length = run.length) : h.pairs? (run.map .plain) vs = some (pairUp vs) := by
  match run, vs with
  | [], [] => rfl
  | [e], _ => exact absurd heven (by simp)
  | e :: e' :: run, k :: v :: vs =>
    have hrest : Even run.length := by simpa [Nat.even_add_one] using heven
    have hpairs := pairs?_plain hrest (Nat.succ.inj (Nat.succ.inj hlength))
    change h.pairs? (⟨e, false⟩ :: ⟨e', false⟩ :: run.map .plain) (k :: v :: vs) = _
    rw [pairs?, hpairs]
    rfl

theorem paired_of_pairs? (hps : h.pairs? items vs = some ps) : Item.Paired items := by
  fun_induction pairs? h items vs generalizing ps with
  | case1 e items v vs ih =>
    obtain ⟨_, _, hrest⟩ := Option.bind_eq_some_iff.mp hps
    obtain ⟨qs, hqs, -⟩ := Option.bind_eq_some_iff.mp hrest
    exact (Item.paired_spreading [] e items).mpr ⟨Even.zero, ih hqs⟩
  | case2 e e' items k v vs ih =>
    obtain ⟨qs, hqs, -⟩ := Option.bind_eq_some_iff.mp hps
    exact (Item.paired_cons_cons e e' items).mpr (ih hqs)
  | case3 => exact (Item.paired_plain []).mpr Even.zero
  | case4 => cases hps

theorem insertEntry_eq (h : Heap) {k v : Value} {acc : List (Value × Value)} (hk : k.hashable = true)
    (hacc : ∀ e ∈ acc, e.1.hashable = true) :
    h.insertEntry k v acc = .ok (Keyed.insertElem (Value.sameEntry (k, v)) (k, v) acc) := by
  have hinsert := Keyed.insert_eq_insertElem (h.sameKey k) (k, v) acc
  have hsame : Keyed.insertElem (fun e => h.sameKey k e.1) (k, v) acc =
      Keyed.insertElem (Value.sameEntry (k, v)) (k, v) acc :=
    Keyed.insertElem_congr fun e he => h.sameKey_eq hk (hacc e he)
  unfold insertEntry
  rw [hashable_eq, if_pos hk, hinsert, hsame]

/-- The key-value pairs that the elements of a dict literal give as they are written: two plain ones
between spread ones give a pair, a spread one those that it gives alone. -/
def asWritten? (h : Heap) : List Item → List Value → Option (List (Value × Value))
  | ⟨e, true⟩ :: items, vs => do
    let parts := Bracket.dict.parts ⟨e, true⟩
    return (← h.pairs? parts (vs.take parts.length)) ++ (← asWritten? h items (vs.drop parts.length))
  | ⟨_, false⟩ :: ⟨_, false⟩ :: items, k :: v :: vs => do return (k, v) :: (← asWritten? h items vs)
  | [], [] => some []
  | _, _ => none

theorem pairs?_spreading (h : Heap) (e : Expr) (items : List Item) (v : Value) (vs : List Value) :
    h.pairs? (.spreading e :: items) (v :: vs) =
      (h.pairsIn? v).bind fun qs => (h.pairs? items vs).map (qs ++ ·) := by
  change h.pairs? (⟨e, true⟩ :: items) (v :: vs) = _
  rw [pairs?]
  cases h.pairsIn? v with
  | none => rfl
  | some qs => cases h.pairs? items vs <;> rfl

theorem pairs?_parts (h : Heap) {e : Expr}
    (heven : ∀ es, e = .tagged "dict" es → Even es.length) (items : List Item) (vs vs' : List Value)
    (hlength : vs.length = (Bracket.dict.parts ⟨e, true⟩).length) :
    h.pairs? (Bracket.dict.parts ⟨e, true⟩ ++ items) (vs ++ vs') =
      (h.pairs? (Bracket.dict.parts ⟨e, true⟩) vs).bind fun qs => (h.pairs? items vs').map (qs ++ ·) := by
  obtain hparts | ⟨es, heq, hparts⟩ := Bracket.dict.parts_cases ⟨e, true⟩
  · rw [hparts] at hlength ⊢
    obtain ⟨v, rfl⟩ := List.length_eq_one_iff.mp hlength
    change h.pairs? (.spreading e :: items) (v :: vs') = (h.pairs? (.spreading e :: []) [v]).bind _
    rw [pairs?_spreading, pairs?_spreading]
    cases h.pairsIn? v with
    | none => rfl
    | some qs => exact congrArg (fun qs => (h.pairs? items vs').map (qs ++ ·)) (List.append_nil qs).symm
  · rw [hparts, List.length_map] at hlength
    have hpairs := pairs?_plain (h := h) (heven es (congrArg Item.expr heq)) hlength
    rw [hparts, pairs?_append hpairs, hpairs]
    rfl

theorem pairs?_flat {items : List Item} (hpaired : Item.Paired items)
    (hspread : ∀ es, .spreading (.tagged "dict" es) ∈ items → Even es.length) (h : Heap)
    (vs : List Value) (hlength : vs.length = (Bracket.dict.flat items).length) :
    h.pairs? (Bracket.dict.flat items) vs = h.asWritten? items vs := by
  match items with
  | [] =>
    rw [List.eq_nil_of_length_eq_zero hlength]
    rfl
  | ⟨e, true⟩ :: items =>
    have hrest := pairs?_flat ((Item.paired_spreading [] e items).mp hpaired).2
      (fun es hes => hspread es (List.mem_cons_of_mem _ hes)) h
      (vs.drop (Bracket.dict.parts ⟨e, true⟩).length) (by
        rw [Bracket.flat_cons, List.length_append] at hlength
        rw [List.length_drop, hlength, Nat.add_sub_cancel_left])
    rw [Bracket.flat_cons, List.length_append] at hlength
    have hpairs := h.pairs?_parts (e := e) (fun es he => hspread es (he ▸ List.mem_cons_self))
      (Bracket.dict.flat items) (vs.take (Bracket.dict.parts ⟨e, true⟩).length)
      (vs.drop (Bracket.dict.parts ⟨e, true⟩).length)
      (List.length_take_of_le (hlength ▸ Nat.le_add_right _ _))
    rw [List.take_append_drop] at hpairs
    rw [Bracket.flat_cons, hpairs, hrest, asWritten?]
    cases h.pairs? (Bracket.dict.parts ⟨e, true⟩) _ with
    | none => rfl
    | some qs => cases asWritten? h items _ <;> rfl
  | ⟨k, false⟩ :: ⟨v, false⟩ :: items =>
    match vs with
    | [] | [_] =>
      have : (Bracket.dict.flat (⟨k, false⟩ :: ⟨v, false⟩ :: items)).length =
        (Bracket.dict.flat items).length + 2 := rfl
      rw [this] at hlength
      simp at hlength
    | a :: b :: vs =>
      have hrest := pairs?_flat ((Item.paired_cons_cons k v items).mp hpaired)
        (fun es hes => hspread es (List.mem_cons_of_mem _ (List.mem_cons_of_mem _ hes))) h
        vs (Nat.succ.inj (Nat.succ.inj hlength))
      change h.pairs? (⟨k, false⟩ :: ⟨v, false⟩ :: Bracket.dict.flat items) (a :: b :: vs) = _
      rw [pairs?, asWritten?, hrest]
  | [⟨e, false⟩] => exact absurd ((Item.paired_plain [e]).mp hpaired) (by simp)
  | ⟨e, false⟩ :: ⟨e', true⟩ :: items =>
    exact absurd ((Item.paired_spreading [e] e' items).mp hpaired).1 (by simp)

end Heap

namespace EvalM

variable {s : ScopeRef} {w w₁ w₂ : World} {v : Value} {acc : List (Value × Value)}

theorem patient_evalEntries (s : ScopeRef) (acc : List (Value × Value)) (cs : List Code) :
    Patient fun r => evalEntries r s acc cs := by
  intro m n hle
  have haccords := Contract.accords_evalEntries (K := patience) (s := s)
    (invariant_anything.lawful (fun _ => rfl) rfl rfl) (accord_patience hle) trivial
    (fun e (_ : e ∈ acc) => ⟨trivial, trivial, trivial⟩)
    fun c (_ : c ∈ cs) => invariant_anything.runs c
  rw [invariant_anything.map_code] at haccords
  exact haccords.mono fun _ _ => trivial

theorem patient_callBuiltin (s : ScopeRef) (b : Builtin) (cs : List Code) :
    Patient fun r => callBuiltin r b cs s := by
  intro m n hle
  have haccords := Contract.accords_callBuiltin (K := patience) (s := s)
    (invariant_anything.lawful (fun _ => rfl) rfl rfl) (accord_patience hle) trivial b
    fun c (_ : c ∈ cs) => invariant_anything.runs c
  rw [invariant_anything.map_code] at haccords
  exact haccords.mono fun _ _ => trivial

theorem yields_builtin {name : String} {b : Builtin}
    (h : w.heap.lookup s name = some (.builtin b)) (es : List Expr) :
    Yields (·.eval (.ofExpr (.tagged name es)) s) w v w₁ ↔
      Yields (fun r => callBuiltin r b (Code.ofExprs es) s) w v w₁ := by
  have hcall (n : Nat) : ((recursor (n + 2)).eval (.ofExpr (.tagged name es)) s).run w = (.ok v, w₁) ↔
      (callBuiltin (recursor (n + 1)) b (Code.ofExprs es) s).run w = (.ok v, w₁) := by
    change ((recursor (n + 2)).eval (.form (.sym name :: Code.ofExprs es)) s).run w = _ ↔ _
    rw [run_eval_builtin h, withFrame_eq, run_tryCatch]
    split
    · next hrun => rw [hrun]
    · next hrun =>
      rw [hrun]
      constructor <;> intro h <;> cases h
  constructor
  · rintro ⟨n, hn⟩
    exact ⟨n + 1, (hcall n).mp ((patient_eval _ s).run_eq (Nat.le_add_right n 2) hn)⟩
  · rintro ⟨n, hn⟩
    exact ⟨n + 2, (hcall n).mpr ((patient_callBuiltin s b _).run_eq (Nat.le_succ n) hn)⟩

theorem patient_insertEntry (k value : Value) (acc : List (Value × Value)) (cs : List Code) :
    Patient fun r => heap >>= fun h => ofExcept (h.insertEntry k value acc) >>= fun acc =>
      evalEntries r s acc cs :=
  (patient_const heap).bind fun _ => (patient_const _).bind fun acc => patient_evalEntries s acc cs

theorem yields_insertEntry {k value : Value} {cs : List Code} (hacc : ∀ e ∈ acc, e.1.hashable = true) :
    Yields (fun r => heap >>= fun h => ofExcept (h.insertEntry k value acc) >>= fun acc =>
        evalEntries r s acc cs) w v w₁ ↔
      k.hashable = true ∧ Yields
        (fun r => evalEntries r s (Keyed.insertElem (Value.sameEntry (k, value)) (k, value) acc) cs)
        w v w₁ := by
  unfold Yields
  refine (exists_congr fun n => by rw [run_heap_bind]).trans ?_
  by_cases hk : k.hashable = true
  · rw [w.heap.insertEntry_eq hk hacc, and_iff_right hk]
    rfl
  · rw [Heap.insertEntry, if_neg (by rwa [Heap.hashable_eq])]
    constructor
    · rintro ⟨n, hn⟩
      cases hn
    · rintro ⟨h, -⟩
      exact absurd h hk

/-- Keys and values are evaluated in turn, and a dict is made of the pairs. -/
theorem yields_evalEntries {cs : List Code} (heven : Even cs.length) {acc : List (Value × Value)}
    (hacc : ∀ e ∈ acc, e.1.hashable = true) {w : World} :
    Yields (fun r => evalEntries r s acc cs) w v w₁ ↔ ∃ vs w₀,
      Yields (fun r => evalAll r s cs) w vs w₀ ∧ (∀ e ∈ pairUp vs, e.1.hashable = true) ∧
        (newDict (Keyed.insertElems Value.sameEntry acc (pairUp vs))).run w₀ = (.ok v, w₁) := by
  match cs with
  | [] =>
    constructor
    · rintro ⟨n, hn⟩
      exact ⟨[], w, .pure [], List.forall_mem_nil _, hn⟩
    · rintro ⟨vs, w₀, hvs, -, hrun⟩
      obtain ⟨rfl, rfl⟩ := yields_evalAll_nil.mp hvs
      exact ⟨0, hrun⟩
  | [c] => exact absurd heven (by simp)
  | k :: c :: cs =>
    have hrest : Even cs.length := by simpa [Nat.even_add_one] using heven
    have hopen : (fun r => evalEntries r s acc (k :: c :: cs)) = fun r => r.eval k s >>= fun key =>
        r.eval c s >>= fun value => heap >>= fun h => ofExcept (h.insertEntry key value acc) >>= fun acc =>
          evalEntries r s acc cs := by
      funext r
      rw [evalEntries]
    rw [hopen, yields_bind (patient_eval k s) fun key =>
      (patient_eval c s).bind fun value => patient_insertEntry key value acc cs]
    constructor
    · rintro ⟨key, w', hkey, hvalue⟩
      obtain ⟨value, w'', hvalue, hinsert⟩ :=
        (yields_bind (patient_eval c s) fun value => patient_insertEntry key value acc cs).mp hvalue
      obtain ⟨hhash, hentries⟩ := (yields_insertEntry hacc).mp hinsert
      obtain ⟨vs, w₀, hvs, hhashes, hrun⟩ := (yields_evalEntries hrest
        (Keyed.forall_insertElem (P := fun e : Value × Value => e.1.hashable = true) hacc hhash)).mp hentries
      refine ⟨key :: value :: vs, w₀, ?_, List.forall_mem_cons.mpr ⟨hhash, hhashes⟩, hrun⟩
      exact yields_evalAll_cons.mpr ⟨key, _, w', rfl, hkey,
        yields_evalAll_cons.mpr ⟨value, vs, w'', rfl, hvalue, hvs⟩⟩
    · rintro ⟨_, w₀, hvs, hhashes, hrun⟩
      obtain ⟨key, _, w', rfl, hkey, hvs⟩ := yields_evalAll_cons.mp hvs
      obtain ⟨value, vs, w'', rfl, hvalue, hvs⟩ := yields_evalAll_cons.mp hvs
      obtain ⟨hhash, hhashes⟩ := List.forall_mem_cons.mp hhashes
      refine ⟨key, w', hkey, ?_⟩
      refine (yields_bind (patient_eval c s) fun value => patient_insertEntry key value acc cs).mpr
        ⟨value, w'', hvalue, (yields_insertEntry hacc).mpr ⟨hhash, ?_⟩⟩
      exact (yields_evalEntries hrest
        (Keyed.forall_insertElem (P := fun e : Value × Value => e.1.hashable = true) hacc hhash)).mpr
        ⟨vs, w₀, hvs, hhashes, hrun⟩

theorem yields_dict {name : String} (h : w.heap.lookup s name = some (.builtin .dict)) (es : List Expr) :
    Yields (·.eval (.ofExpr (.tagged name es)) s) w v w₁ ↔ Even es.length ∧ ∃ vs w₀,
      Yields (fun r => evalAll r s (Code.ofExprs es)) w vs w₀ ∧
        (∀ e ∈ pairUp vs, e.1.hashable = true) ∧
        (newDict (Keyed.insertElems Value.sameEntry [] (pairUp vs))).run w₀ = (.ok v, w₁) := by
  have hlength : (Code.ofExprs es).length = es.length := by rw [Code.ofExprs_eq_map, List.length_map]
  rw [yields_builtin h]
  change Yields (fun r => callDict r (Code.ofExprs es) s) w v w₁ ↔ _
  by_cases heven : Even es.length
  · rw [and_iff_right heven, ← yields_evalEntries (by rwa [hlength]) (List.forall_mem_nil _)]
    have hopen (r : Recursor) : callDict r (Code.ofExprs es) s = evalEntries r s [] (Code.ofExprs es) :=
      if_neg (by rwa [hlength, ne_eq, not_not, ← Nat.even_iff])
    simp only [hopen]
  · have hopen (r : Recursor) : callDict r (Code.ofExprs es) s = fail
        (.badValue "number of arguments" "even" (toString (Code.ofExprs es).length)) :=
      if_pos (by rwa [hlength, ne_eq, ← Nat.even_iff])
    simp only [hopen]
    constructor
    · rintro ⟨n, hn⟩
      cases hn
    · rintro ⟨h, -⟩
      exact absurd h heven

theorem run_pairOf {u : Value} {e : Value × Value} :
    (pairOf u).run w = (.ok e, w₁) ↔ w.heap.pair? u = some e ∧ w₁ = w := by
  unfold pairOf
  rw [run_heap_bind]
  split
  · next k value hiterate =>
    have hpair : w.heap.pair? u = some (k, value) := by rw [Heap.pair?, hiterate]
    rw [hpair]
    constructor
    · intro h
      obtain ⟨heq, rfl⟩ := Prod.mk.inj h
      exact ⟨congrArg some (Except.ok.inj heq), rfl⟩
    · rintro ⟨heq, rfl⟩
      cases heq
      rfl
  · next hiterate =>
    have hpair : w.heap.pair? u = none := by
      unfold Heap.pair?
      split
      · next h => exact absurd h (hiterate _ _)
      · rfl
    rw [hpair, run_bind]
    constructor
    · intro h
      split at h <;> cases h
    · rintro ⟨h, -⟩
      cases h

theorem mapM_cons_eq_some {α β : Type} {f : α → Option β} {a : α} {as : List α} {bs : List β} :
    (a :: as).mapM f = some bs ↔ ∃ b rest, f a = some b ∧ as.mapM f = some rest ∧ bs = b :: rest := by
  rw [List.mapM_cons]
  cases f a with
  | none => simp
  | some b => cases as.mapM f <;> simp [eq_comm]

theorem run_makeDict_collect {us : List Value} (hacc : ∀ e ∈ acc, e.1.hashable = true) :
    (makeDict.collect acc us).run w = (.ok v, w₁) ↔ ∃ ps, us.mapM w.heap.pair? = some ps ∧
      (∀ e ∈ ps, e.1.hashable = true) ∧
      (newDict (Keyed.insertElems Value.sameEntry acc ps)).run w = (.ok v, w₁) := by
  induction us generalizing acc with
  | nil =>
    constructor
    · exact fun h => ⟨[], rfl, List.forall_mem_nil _, h⟩
    · rintro ⟨ps, hps, -, hrun⟩
      cases hps
      exact hrun
  | cons u us ih =>
    have hopen : makeDict.collect acc (u :: us) = pairOf u >>= fun e => heap >>= fun h =>
        ofExcept (h.insertEntry e.1 e.2 acc) >>= fun acc => makeDict.collect acc us := rfl
    rw [hopen, run_bind]
    simp only [mapM_cons_eq_some]
    cases hpair : w.heap.pair? u with
    | none =>
      have hfails : ∀ e w₁, (pairOf u).run w ≠ (.ok e, w₁) := fun e w₁ hrun => by
        rw [(run_pairOf.mp hrun).1] at hpair
        cases hpair
      split
      · next hrun => exact absurd hrun (hfails _ _)
      · constructor
        · intro h
          cases h
        · rintro ⟨_, ⟨_, _, h, -⟩, -⟩
          cases h
    | some e =>
      rw [run_pairOf.mpr ⟨hpair, rfl⟩]
      dsimp only
      rw [run_heap_bind]
      by_cases hk : e.1.hashable = true
      · rw [w.heap.insertEntry_eq hk hacc]
        have hnext : ∀ a ∈ Keyed.insertElem (Value.sameEntry e) e acc, a.1.hashable = true :=
          Keyed.forall_insertElem (P := fun e : Value × Value => e.1.hashable = true) hacc hk
        refine (ih hnext).trans ?_
        constructor
        · rintro ⟨ps, hps, hhash, hrun⟩
          exact ⟨e :: ps, ⟨e, ps, rfl, hps, rfl⟩, List.forall_mem_cons.mpr ⟨hk, hhash⟩, hrun⟩
        · rintro ⟨_, ⟨_, ps, ⟨⟩, hps, rfl⟩, hhash, hrun⟩
          exact ⟨ps, hps, (List.forall_mem_cons.mp hhash).2, hrun⟩
      · rw [Heap.insertEntry, if_neg (by rwa [Heap.hashable_eq])]
        constructor
        · intro h
          cases h
        · rintro ⟨_, ⟨_, _, ⟨⟩, -, rfl⟩, hhash, -⟩
          exact absurd (List.forall_mem_cons.mp hhash).1 hk

theorem allPairs?_eq (h : Heap) {es : List Expr} {us : List Value} (hlength : us.length = es.length) :
    h.allPairs? us = (h.sequence (es.map .spreading) us).toOption.bind (·.mapM h.pair?) := by
  induction es generalizing us with
  | nil =>
    rw [List.eq_nil_of_length_eq_zero hlength]
    rfl
  | cons e es ih =>
    obtain ⟨u, us, rfl⟩ := List.exists_cons_of_length_eq_add_one hlength
    have hpairs : h.allPairs? (u :: us) = (h.pairsIn? u).bind fun ps =>
        (h.allPairs? us).bind fun qs => some (ps ++ qs) := rfl
    have hsequence : h.sequence ((e :: es).map .spreading) (u :: us) = (h.iterate u >>= fun elems =>
        h.sequence (es.map .spreading) us >>= fun rest => .ok (elems ++ rest)) := rfl
    rw [hpairs, hsequence, ih (Nat.succ.inj hlength), Heap.pairsIn?]
    cases h.iterate u with
    | error r => rfl
    | ok elems =>
      change (elems.mapM h.pair?).bind _ = _
      cases h.sequence (es.map .spreading) us with
      | error r => cases elems.mapM h.pair? <;> rfl
      | ok rest =>
        change _ = (elems ++ rest).mapM h.pair?
        rw [List.mapM_append]
        rfl

/-- The builtin that makes a dict of the pairs in its arguments. -/
theorem run_intoDict {es : List Expr} {us : List Value} (hlength : us.length = es.length) :
    (applyStrict .intoDict us).run w = (.ok v, w₁) ↔
      ∃ ps, w.heap.allPairs? us = some ps ∧ (∀ e ∈ ps, e.1.hashable = true) ∧
        (newDict (Keyed.insertElems Value.sameEntry [] ps)).run w = (.ok v, w₁) := by
  change (collect us >>= makeDict).run w = _ ↔ _
  rw [run_bind, run_collect hlength, allPairs?_eq w.heap hlength]
  cases w.heap.sequence (es.map .spreading) us with
  | error r =>
    constructor
    · intro h
      cases h
    · rintro ⟨_, h, -⟩
      cases h
  | ok elems => exact run_makeDict_collect (List.forall_mem_nil _)

end EvalM

end EventTally
