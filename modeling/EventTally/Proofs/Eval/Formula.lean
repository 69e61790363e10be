import EventTally.Proofs.Eval.Contract
import EventTally.Proofs.Heap.Finite
import EventTally.Proofs.Scope

/-! # Formulas

Code made of constants, names, look-ups of fields, lengths, sums, equations and conditions. Such code
changes nothing, and what it gives depends only on what its names show: it computes a function on
data (`Formula.answers`).
-/

namespace EventTally

namespace Datum

def len? : Datum → Option Nat
  | .atom (.str s) => some s.length
  | .tuple ds | .list ds | .set ds => some ds.length
  | .dict es => some es.length
  | _ => none

def truthy : Datum → Bool
  | .atom a => a.truthy
  | d => d.len? != some 0

@[simp] theorem truthy_bool (b : Bool) : (Datum.bool b).truthy = b := rfl

def plus? : Datum → Datum → Option Datum
  | .atom a, .atom b =>
    match Arith.fold .add [.atom a, .atom b] with
    | .ok (.atom c) => some (.atom c)
    | _ => none
  | _, _ => none

end Datum

inductive Formula where
  | const (a : Atom)
  | name (x : String)
  | get (f : Formula) (key : String) (default : Formula)
  | len (f : Formula)
  | add (f g : Formula)
  | equal (f g : Formula)
  | cond (f yes no : Formula)
  deriving Inhabited

namespace Formula

def quoted (x : String) : Code := .form [.sym "quote", .sym x]

def code : Formula → Code
  | .const (.sym x) => quoted x
  | .const a => .value (.atom a)
  | .name x => .sym x
  | .get f key default => .form [.sym "get", f.code, quoted key, default.code]
  | .len f => .form [.sym "len", f.code]
  | .add f g => .form [.sym "+", f.code, g.code]
  | .equal f g => .form [.sym "=", f.code, g.code]
  | .cond f yes no => .form [.sym "if", f.code, yes.code, no.code]

def names : Formula → List String
  | .const _ => []
  | .name x => [x]
  | .len f => f.names
  | .get f _ g | .add f g | .equal f g => f.names ++ g.names
  | .cond f yes no => f.names ++ (yes.names ++ no.names)

/-- The fuel that suffices to evaluate a formula. -/
def fuel : Formula → Nat
  | .const _ | .name _ => 2
  | .len f => f.fuel + 1
  | .get f _ g | .add f g | .equal f g => max f.fuel g.fuel + 1
  | .cond f yes no => max f.fuel (max yes.fuel no.fuel) + 1

/-- The datum that a formula gives where its names stand for data; none if it fails. -/
def value? (env : String → Datum) : Formula → Option Datum
  | .const a => some (.atom a)
  | .name x => some (env x)
  | .get f key default => do
    match ← f.value? env with
    | .dict es => (Keyed.find? (Datum.sym key).sameKey es).or (default.value? env)
    | _ => default.value? env
  | .len f => do return .int (Int64.ofNat (← (← f.value? env).len?))
  | .add f g => do
    let a ← f.value? env
    a.plus? (← g.value? env)
  | .equal f g => do
    let a ← f.value? env
    return .bool (a.equal (← g.value? env))
  | .cond f yes no => do if (← f.value? env).truthy then yes.value? env else no.value? env

end Formula

namespace Heap

variable {h : Heap} {v : Value} {d : Datum}

theorem Shows.len? (hv : h.Shows v d) : h.len? v = d.len? := by
  rw [← hv.view]
  cases v with
  | atom a => cases a <;> rfl
  | tuple vs => simp [Heap.len?, Value.view, Value.views_eq_map, Datum.len?]
  | list r => simp [Heap.len?, Value.view, lens, Datum.len?]
  | dict r => simp [Heap.len?, Value.view, lens, Datum.len?]
  | set r => simp [Heap.len?, Value.view, lens, Datum.len?]
  | builtin b => rfl
  | closure r => rfl

theorem Shows.truthy (hv : h.Shows v d) : h.truthy v = d.truthy := by
  have hlen := hv.len?
  cases d with
  | atom a =>
    rw [hv.eq_atom]
    rfl
  | _ =>
    cases v with
    | atom a => cases hv.datum
    | _ => simp only [Heap.truthy, Datum.truthy, hlen]

theorem showsEntries_of_views {es : List (Value × Value)} {ds : List (Datum × Datum)}
    (hviews : ∀ h', h.Extends h' → ∀ n, h.objectCount ≤ n →
      es.map (fun e => (e.1.view (h'.lens n), e.2.view (h'.lens n))) = ds) :
    List.Forall₂ h.ShowsEntry es ds := by
  induction es generalizing ds with
  | nil =>
    cases hviews h (.refl h) _ (Nat.le_refl _)
    exact .nil
  | cons e es ih =>
    cases ds with
    | nil => cases hviews h (.refl h) _ (Nat.le_refl _)
    | cons d ds =>
      have hcons := fun h' hext n hn => List.cons_eq_cons.mp (hviews h' hext n hn)
      refine .cons ⟨?_, ?_⟩ (ih fun h' hext n hn => (hcons h' hext n hn).2)
      · exact fun h' hext n hn => congrArg Prod.fst (hcons h' hext n hn).1
      · exact fun h' hext n hn => congrArg Prod.snd (hcons h' hext n hn).1

theorem Shows.entries {r : DictRef} {es : List (Datum × Datum)} (hr : h.Shows (.dict r) (.dict es)) :
    List.Forall₂ h.ShowsEntry (h.entries r) es := by
  refine showsEntries_of_views fun h' hext n hn => ?_
  have hview : Datum.dict _ = .dict es := hr h' hext (n + 1) (by omega)
  have hentries := Datum.dict.inj hview
  by_cases hlt : r.id < h.dicts.size
  · rw [← hentries, hext.entries hlt]
  · have hnone : h.entries r = [] := by
      simp [Heap.entries, Array.getElem?_eq_none (Nat.le_of_not_lt hlt)]
    have hview₀ : Datum.dict _ = .dict es := hr h (.refl h) (h.objectCount + 1) (by omega)
    rw [← Datum.dict.inj hview₀, hnone]
    rfl

end Heap

namespace Arith

theorem apply_eq_error (op : Arith) (a : Value) {b : Value} (hb : ∀ c, b ≠ .atom c) :
    ∃ e, op.apply a b = .error e := by
  cases h : op.apply a b with
  | error e => exact ⟨e, rfl⟩
  | ok r =>
    unfold Arith.apply at h
    dsimp only at h
    split at h
    · next i j => exact absurd rfl (hb _)
    · obtain ⟨x, -, h⟩ := Codec.bind_eq_ok h
      obtain ⟨y, hy, -⟩ := Codec.bind_eq_ok h
      unfold Value.toFloat? at hy
      split at hy
      · exact absurd rfl (hb _)
      · exact absurd rfl (hb _)
      · cases hy

theorem fold_add (a b : Value) :
    Arith.fold .add [a, b] = (do Arith.add.apply (← Arith.add.apply (.int 0) a) b) := by
  simp [Arith.fold]

end Arith

namespace EvalM

variable {α β δ γ : Type} {w : World} {R : α → δ → Prop} {S : β → γ → Prop}

/-- An evaluation leaves the world as it is and fails, or it gives a result related to `d`. -/
def Answers (w : World) (R : α → δ → Prop) (act : EvalM α) : Option δ → Prop
  | some d => ∃ a, act.run w = (.ok a, w) ∧ R a d
  | none => ∃ fault, act.run w = (.error fault, w)

namespace Answers

theorem pure {a : α} {d : δ} (h : R a d) : Answers w R (Pure.pure a) (some d) := ⟨a, rfl, h⟩

theorem fail (r : Reason) : Answers w R (EvalM.fail r) none := ⟨_, rfl⟩

theorem run_bind {x : EvalM β} {f : β → EvalM α} {b : β} {r : Option δ} (hx : x.run w = (.ok b, w))
    (hf : Answers w R (f b) r) : Answers w R (x >>= f) r := by
  cases r with
  | none =>
    obtain ⟨fault, hrun⟩ := hf
    refine ⟨fault, ?_⟩
    rw [EventTally.run_bind, hx]
    exact hrun
  | some d =>
    obtain ⟨a, hrun, hR⟩ := hf
    refine ⟨a, ?_, hR⟩
    rw [EventTally.run_bind, hx]
    exact hrun

theorem bind {x : EvalM α} {f : α → EvalM β} {r : Option δ} {k : δ → Option γ}
    (hx : Answers w R x r) (hf : ∀ a d, R a d → Answers w S (f a) (k d)) :
    Answers w S (x >>= f) (r >>= k) := by
  cases r with
  | none =>
    obtain ⟨fault, hrun⟩ := hx
    refine ⟨fault, ?_⟩
    rw [EventTally.run_bind, hrun]
  | some d =>
    obtain ⟨a, hrun, hR⟩ := hx
    exact run_bind hrun (hf a d hR)

theorem heap_bind {f : Heap → EvalM α} {r : Option δ} (h : Answers w R (f w.heap) r) :
    Answers w R (heap >>= f) r := by
  cases r with
  | none => exact h
  | some d => exact h

theorem withFrame {act : EvalM α} {r : Option δ} (h : Answers w R act r) (frame : String) :
    Answers w R (withFrame frame act) r := by
  unfold EvalM.withFrame
  cases r with
  | none =>
    obtain ⟨fault, hrun⟩ := h
    cases fault with
    | raised e =>
      refine ⟨.raised { e with trace := frame :: e.trace }, ?_⟩
      rw [run_tryCatch, hrun]
      rfl
    | crashed =>
      refine ⟨.crashed, ?_⟩
      rw [run_tryCatch, hrun]
      rfl
    | exhausted =>
      refine ⟨.exhausted, ?_⟩
      rw [run_tryCatch, hrun]
      rfl
  | some d =>
    obtain ⟨a, hrun, hR⟩ := h
    refine ⟨a, ?_, hR⟩
    rw [run_tryCatch, hrun]

end Answers

/-- All builtins of the language can be called in a scope. -/
def Visible (h : Heap) (s : ScopeRef) : Prop :=
  ∀ b ∈ Builtin.all, h.lookup s b.name = some (.builtin b)

theorem visible_frame {h : Heap} {base : ScopeRef} {bindings : List (String × Value)}
    (hnodup : (bindings.map Prod.fst).Nodup)
    (hfree : ∀ b ∈ Builtin.all, b.name ∉ bindings.map Prod.fst) (hvisible : Visible h base) :
    Visible (h.frame base bindings) (h.child base).1 := by
  intro b hb
  refine Heap.lookup_frame_base hnodup ?_ (hvisible b hb)
  have hnone : bindings.find? (fun e => e.1 == b.name) = none := by
    rw [List.find?_eq_none]
    intro e he heq
    exact hfree b hb (eq_of_beq heq ▸ List.mem_map_of_mem he)
  rw [Keyed.find?, hnone]
  rfl

theorem visible_extends {h h' : Heap} {s : ScopeRef} (hvisible : Visible h s) (hext : h.Extends h') :
    Visible h' s :=
  fun b hb => hext.lookup (hvisible b hb)

theorem visible_initial : Visible Heap.initial Heap.builtinScope := by
  intro b hb
  have hfind : ∀ b ∈ Builtin.all, Builtin.all.find? (fun b' => b'.name == b.name) = some b := by
    decide +kernel
  have hlocal : Heap.initial.localValue Heap.builtinScope b.name = some (.builtin b) := by
    change ((Builtin.all.map fun b => (b.name, Value.builtin b)).find? fun e => e.1 == b.name).map _ = _
    rw [List.find?_map, Option.map_map]
    change (Builtin.all.find? (fun b' => b'.name == b.name)).map _ = _
    rw [hfind b hb]
    rfl
  rw [Heap.lookup, hlocal]

theorem visible_child {h : Heap} {s : ScopeRef} (hvisible : Visible h s) :
    Visible (h.child s).2 (h.child s).1 :=
  @visible_frame h s [] List.nodup_nil (by simp) hvisible

variable {s : ScopeRef} {n : Nat}

theorem eval_sym (name : String) :
    (recursor (n + 1)).eval (.sym name) s = heap >>= fun h => match h.lookup s name with
      | some v => Pure.pure v
      | none => EvalM.fail (.noSuchName name) := rfl

theorem answers_name {R : Value → δ → Prop} {name : String} {v : Value} {d : δ}
    (hname : w.heap.lookup s name = some v) (hv : R v d) :
    Answers w R ((recursor (n + 1)).eval (.sym name) s) (some d) := by
  rw [eval_sym]
  refine Answers.heap_bind ?_
  rw [hname]
  exact Answers.pure hv

theorem answers_form {b : Builtin} (hvisible : Visible w.heap s) (hb : b ∈ Builtin.all)
    {args : List Code} {R : Value → δ → Prop} {r : Option δ}
    (hcall : Answers w R (callBuiltin (recursor (n + 1)) b args s) r) :
    Answers w R ((recursor (n + 2)).eval (.form (.sym b.name :: args)) s) r := by
  obtain ⟨v, hhead, rfl⟩ : Answers w Eq ((recursor (n + 1)).eval (.sym b.name) s)
      (some (.builtin b)) := answers_name (hvisible b hb) rfl
  change Answers w R ((recursor (n + 1)).eval (.sym b.name) s >>= fun v =>
    callHead (recursor (n + 1)) v args s) r
  exact Answers.run_bind hhead (hcall.withFrame b.name)

theorem answers_fold {v v' : Value} {d d' : Datum} (hv : w.heap.Shows v d)
    (hv' : w.heap.Shows v' d') :
    Answers w w.heap.Shows (ofExcept (Arith.fold .add [v, v'])) (d.plus? d') := by
  rw [Arith.fold_add]
  unfold Datum.plus?
  split
  · next a b =>
    rw [hv.eq_atom, hv'.eq_atom, Arith.fold_add]
    cases hsum : (do Arith.add.apply (← Arith.add.apply (.int 0) (.atom a)) (.atom b)) with
    | error e => exact Answers.fail e
    | ok r =>
      obtain ⟨x, -, hx⟩ := Codec.bind_eq_ok hsum
      obtain ⟨c, rfl⟩ := Arith.apply_eq_atom hx
      exact Answers.pure (w.heap.shows_atom c)
  · next hatoms =>
    -- One of the two is no atom, and so its sum with anything fails.
    have herror : ∃ e, (do Arith.add.apply (← Arith.add.apply (.int 0) v) v') = .error e := by
      cases hleft : Arith.add.apply (.int 0) v with
      | error e => exact ⟨e, rfl⟩
      | ok x =>
        by_cases hatom' : ∃ b, v' = .atom b
        · obtain ⟨b, rfl⟩ := hatom'
          by_cases hatom : ∃ a, v = .atom a
          · obtain ⟨a, rfl⟩ := hatom
            exact absurd hv'.datum.symm (hatoms a b hv.datum.symm)
          · obtain ⟨e, he⟩ := Arith.apply_eq_error .add (.int 0) fun c hc => hatom ⟨c, hc⟩
            rw [he] at hleft
            cases hleft
        · exact Arith.apply_eq_error .add x fun c hc => hatom' ⟨c, hc⟩
    obtain ⟨e, he⟩ := herror
    rw [he]
    exact Answers.fail e

section

variable {rec : Recursor} {c c' yes no : Code} {r r' ryes rno : Option Datum}
  (hc : Answers w w.heap.Shows (rec.eval c s) r)
  (hc' : Answers w w.heap.Shows (rec.eval c' s) r')

theorem answers_found (hno : Answers w w.heap.Shows (rec.eval no s) rno) {found : Option Value}
    {found' : Option Datum} {key : Datum} :
    Option.Rel w.heap.Shows found found' →
      Answers w w.heap.Shows (if found.isSome then ofExcept (match found with
        | some v => .ok v
        | none => .error (.noSuchKey key)) else rec.eval no s) (found'.or rno) := by
  rintro (hv | _)
  · exact Answers.pure hv
  · exact hno

include hc

theorem answers_len : Answers w w.heap.Shows (callBuiltin rec (.strict .len) [c] s)
    (do return .int (Int64.ofNat (← (← r).len?))) := by
  have harg : Answers w (fun vs d => ∃ v, vs = [v] ∧ w.heap.Shows v d) (evalAll rec s [c]) r := by
    rw [← bind_pure r]
    exact hc.bind fun v d hv => Answers.pure ⟨v, rfl, hv⟩
  change Answers w w.heap.Shows (evalAll rec s [c] >>= totalLength) _
  refine harg.bind ?_
  rintro _ d ⟨v, rfl, hv⟩
  refine Answers.heap_bind ?_
  rw [List.foldlM_cons, hv.len?]
  cases d.len? with
  | none => exact Answers.fail _
  | some m =>
    refine Answers.run_bind (b := Int64.ofNat m) ?_ (Answers.pure (w.heap.shows_atom _))
    change (Pure.pure (0 + Int64.ofNat m) : EvalM Int64).run w = _
    rw [Int64.zero_add]
    rfl

theorem answers_cond (hyes : Answers w w.heap.Shows (rec.eval yes s) ryes)
    (hno : Answers w w.heap.Shows (rec.eval no s) rno) :
    Answers w w.heap.Shows (callBuiltin rec .cond [c, yes, no] s)
      (do if (← r).truthy then ryes else rno) := by
  change Answers w w.heap.Shows (rec.eval c s >>= fun v => heap >>= fun h =>
    if h.truthy v then rec.eval yes s else rec.eval no s) _
  refine hc.bind fun v d hv => Answers.heap_bind ?_
  rw [hv.truthy]
  split
  · exact hyes
  · exact hno

theorem answers_get {key : String} (hkey : Answers w w.heap.Shows (rec.eval c' s) (some (.sym key)))
    (hno : Answers w w.heap.Shows (rec.eval no s) rno) :
    Answers w w.heap.Shows (callBuiltin rec .get [c, c', no] s) (do
      match ← r with
      | .dict es => (Keyed.find? (Datum.sym key).sameKey es).or rno
      | _ => rno) := by
  obtain ⟨k, hrun, hk⟩ := hkey
  have hsym := hk.eq_atom
  subst hsym
  change Answers w w.heap.Shows (rec.eval c s >>= fun col => rec.eval c' s >>= fun key => heap >>= fun h =>
    if h.hasIndex col key then ofExcept (h.index col key) else rec.eval no s) _
  refine hc.bind fun col d hcol => Answers.run_bind hrun (Answers.heap_bind ?_)
  cases d with
  | dict es =>
    cases col with
    | dict ref => exact answers_found hno (Heap.findEntry_shows hk hcol.entries)
    | _ => cases hcol.view
  | _ =>
    -- Only a dict has a symbol among its indices.
    have hindex : w.heap.hasIndex col (.sym key) = false := by
      cases col with
      | dict ref => cases hcol.view
      | atom a => cases a <;> rfl
      | _ => rfl
    rw [hindex]
    exact hno

include hc'

theorem answers_add : Answers w w.heap.Shows (callBuiltin rec (.strict (.arith .add)) [c, c'] s)
    (do (← r).plus? (← r')) := by
  have hargs : Answers w (fun vs d => ∃ v v', vs = [v, v'] ∧ w.heap.Shows v d.1 ∧
      w.heap.Shows v' d.2) (evalAll rec s [c, c']) (do return (← r, ← r')) := by
    refine hc.bind fun v d hv => ?_
    have harg' : Answers w (fun vs d' => ∃ v', vs = [v'] ∧ w.heap.Shows v' d')
        (evalAll rec s [c']) r' := by
      rw [← bind_pure r']
      exact hc'.bind fun v' d' hv' => Answers.pure ⟨v', rfl, hv'⟩
    refine harg'.bind ?_
    rintro _ d' ⟨v', rfl, hv'⟩
    exact Answers.pure ⟨v, v', rfl, hv, hv'⟩
  change Answers w w.heap.Shows (evalAll rec s [c, c'] >>= fun vs => ofExcept (Arith.fold .add vs)) _
  have hsum := hargs.bind (k := fun d => d.1.plus? d.2) (f := fun vs => ofExcept (Arith.fold .add vs))
    (S := w.heap.Shows) ?_
  · cases r with
    | none => exact hsum
    | some d =>
      cases r' with
      | none => exact hsum
      | some d' => exact hsum
  · rintro _ ⟨d, d'⟩ ⟨v, v', rfl, hv, hv'⟩
    exact answers_fold hv hv'

theorem answers_equal : Answers w w.heap.Shows (callBuiltin rec (.relation .eq) [c, c'] s)
    (do return .bool ((← r).equal (← r'))) := by
  have hright : ∀ left d, w.heap.Shows left d → Answers w Eq (chain rec s .eq left [c'])
      (do return d.equal (← r')) := by
    intro left d hleft
    change Answers w Eq (rec.eval c' s >>= fun right => heap >>= fun h =>
      ofOption (h.relate? .eq left right) >>= fun holds => ofExcept holds >>= fun t =>
        if t then chain rec s .eq right [] else return false) _
    refine hc'.bind fun right d' hright => Answers.heap_bind ?_
    have hequal : w.heap.relate? .eq left right = some (.ok (d.equal d')) := by
      rw [Heap.relate?, Heap.equal?_of_isFinite hleft.isFinite hright.isFinite, Heap.equal, hleft.datum,
        hright.datum]
      rfl
    rw [hequal]
    change Answers w Eq (if d.equal d' then chain rec s .eq right [] else return false) _
    cases d.equal d' with
    | true => exact Answers.pure rfl
    | false => exact Answers.pure rfl
  change Answers w w.heap.Shows (rec.eval c s >>= fun left =>
    chain rec s .eq left [c'] >>= fun t => return .bool t) _
  refine hc.bind fun left d hleft => ?_
  have hanswer : Answers w w.heap.Shows (chain rec s .eq left [c'] >>= fun t => return .bool t)
      ((do return d.equal (← r')) >>= fun t => return .bool t) := by
    refine (hright left d hleft).bind ?_
    rintro t _ rfl
    exact Answers.pure (w.heap.shows_atom _)
  cases r' with
  | none => exact hanswer
  | some d' => exact hanswer

end

end EvalM

namespace Formula

open EvalM

theorem two_le_fuel (f : Formula) : 2 ≤ f.fuel := by
  induction f with
  | const a => exact Nat.le_refl 2
  | name x => exact Nat.le_refl 2
  | len f hf => exact Nat.le_succ_of_le hf
  | get f key g hf hg => exact Nat.le_succ_of_le (le_max_of_le_left hf)
  | add f g hf hg => exact Nat.le_succ_of_le (le_max_of_le_left hf)
  | equal f g hf hg => exact Nat.le_succ_of_le (le_max_of_le_left hf)
  | cond f yes no hf hyes hno => exact Nat.le_succ_of_le (le_max_of_le_left hf)

theorem exists_fuel (f : Formula) {k n : Nat} (hk : f.fuel ≤ k) (hn : k + 1 ≤ n) :
    ∃ m, n = m + 3 ∧ k ≤ m + 2 := by
  have htwo := f.two_le_fuel
  exact ⟨n - 3, by omega, by omega⟩

variable {w : World} {s : ScopeRef}

theorem answers_quoted (hvisible : Visible w.heap s) (n : Nat) (x : String) :
    Answers w w.heap.Shows ((recursor (n + 2)).eval (quoted x) s) (some (.sym x)) := by
  have hquote : Builtin.quote ∈ Builtin.all := by decide
  exact answers_form hvisible hquote (Answers.pure (w.heap.shows_atom _))

/-- A formula computes its function of what its names show. -/
theorem answers (f : Formula) (env : String → Datum) (hvisible : Visible w.heap s)
    (hnames : ∀ x ∈ f.names, ∃ v, w.heap.lookup s x = some v ∧ w.heap.Shows v (env x)) {n : Nat}
    (hn : f.fuel ≤ n) :
    Answers w w.heap.Shows ((recursor n).eval f.code s) (f.value? env) := by
  induction f generalizing n with
  | const a =>
    obtain ⟨m, rfl⟩ := Nat.exists_eq_add_of_le' hn
    cases a with
    | sym x => exact answers_quoted hvisible m x
    | _ => exact Answers.pure (w.heap.shows_atom _)
  | name x =>
    obtain ⟨m, rfl⟩ := Nat.exists_eq_add_of_le' hn
    obtain ⟨v, hlookup, hv⟩ := hnames x (List.mem_singleton_self x)
    exact answers_name hlookup hv
  | get f key g hf hg =>
    obtain ⟨m, rfl, hm⟩ := exists_fuel f (le_max_left _ _) hn
    obtain ⟨hfm, hgm⟩ := max_le_iff.mp hm
    obtain ⟨hnamesf, hnamesg⟩ := List.forall_mem_append.mp hnames
    have hget : Builtin.get ∈ Builtin.all := by decide
    refine answers_form hvisible hget (answers_get (hf hnamesf hfm) ?_ (hg hnamesg hgm))
    exact answers_quoted hvisible m key
  | len f hf =>
    obtain ⟨m, rfl, hm⟩ := exists_fuel f (Nat.le_refl _) hn
    have hlen : Builtin.strict .len ∈ Builtin.all := by decide
    exact answers_form hvisible hlen (answers_len (hf hnames hm))
  | add f g hf hg =>
    obtain ⟨m, rfl, hm⟩ := exists_fuel f (le_max_left _ _) hn
    obtain ⟨hfm, hgm⟩ := max_le_iff.mp hm
    obtain ⟨hnamesf, hnamesg⟩ := List.forall_mem_append.mp hnames
    have hadd : Builtin.strict (.arith .add) ∈ Builtin.all := by decide
    exact answers_form hvisible hadd (answers_add (hf hnamesf hfm) (hg hnamesg hgm))
  | equal f g hf hg =>
    obtain ⟨m, rfl, hm⟩ := exists_fuel f (le_max_left _ _) hn
    obtain ⟨hfm, hgm⟩ := max_le_iff.mp hm
    obtain ⟨hnamesf, hnamesg⟩ := List.forall_mem_append.mp hnames
    have hequal : Builtin.relation .eq ∈ Builtin.all := by decide
    exact answers_form hvisible hequal (answers_equal (hf hnamesf hfm) (hg hnamesg hgm))
  | cond f yes no hf hyes hno =>
    obtain ⟨m, rfl, hm⟩ := exists_fuel f (le_max_left _ _) hn
    obtain ⟨hfm, hm⟩ := max_le_iff.mp hm
    obtain ⟨hyesm, hnom⟩ := max_le_iff.mp hm
    obtain ⟨hnamesf, hnames⟩ := List.forall_mem_append.mp hnames
    obtain ⟨hnamesyes, hnamesno⟩ := List.forall_mem_append.mp hnames
    have hcond : Builtin.cond ∈ Builtin.all := by decide
    exact answers_form hvisible hcond
      (answers_cond (hf hnamesf hfm) (hyes hnamesyes hyesm) (hno hnamesno hnom))

end Formula

end EventTally
