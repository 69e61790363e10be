import EventTally.Proofs.Eval.Frame
import EventTally.Proofs.Heap.Grown
import EventTally.Proofs.Renaming.Closed

/-! # Expressions without effects

Evaluating a literal, a symbol or a pin of a symbol changes nothing that is there: it can fail, and it
can make new objects. So it keeps every invariant that new objects keep (`Shelter.eval`), as long
as the builtins it calls are the ones that the scope shows. Code is seen as it is in a heap that grows:
new objects do not change which form it is.
-/

namespace EventTally

namespace Heap

variable {h h' : Heap} {c e : Code} {cs : List Code} {bs : List Builtin} {tag : String}

def resolved (h : Heap) : Code → Code
  | .slot r i => .value (h.slot r i)
  | c => c

/-- The elements of a form, be it source code or a run-time list. -/
def form? (h : Heap) (c : Code) : Option (List Code) :=
  match h.resolved c with
  | .form elems => some elems
  | .value (.list r) => some (h.slots r)
  | _ => none

def symbol? (h : Heap) (c : Code) : Option String :=
  match h.resolved c with
  | .value (.atom (.sym name)) => some name
  | _ => none

/-- The symbol that a form starts with. -/
def head? (h : Heap) (cs : List Code) : Option String := cs.head?.bind h.symbol?

/-- The code is a form that starts with the symbol and goes on with the elements. -/
def Tagged (h : Heap) (tag : String) (c : Code) (cs : List Code) : Prop :=
  ∃ hd, h.form? c = some (hd :: cs) ∧ h.symbol? hd = some tag

/-- Code that quotes symbols and other values in forms, and may unquote symbols in them. -/
inductive Quotable (h : Heap) : Code → Prop
  | value {c : Code} {v : Value} (hc : h.resolved c = .value v) (hv : ∀ r, v ≠ .list r) : Quotable h c
  | form {c : Code} {cs : List Code} (hc : h.form? c = some cs) (hhead : h.head? cs ≠ some "unquote")
      (hcs : ∀ c ∈ cs, Quotable h c) : Quotable h c
  | unquote {c e : Code} {name : String} (hc : h.Tagged "unquote" c [e])
      (he : h.symbol? e = some name) : Quotable h c

def builtinOf : Bracket → Builtin
  | .list => .strict .list
  | .tuple => .strict .tuple
  | .dict => .dict
  | .set => .strict .set

def intoBuiltinOf : Bracket → Builtin
  | .list => .strict .intoList
  | .tuple => .strict .intoTuple
  | .dict => .strict .intoDict
  | .set => .strict .intoSet

/-- Literals, symbols and pins of symbols, which call no builtins but these. -/
inductive Harmless (h : Heap) (bs : List Builtin) : Code → Prop
  | value {c : Code} {v : Value} (hc : h.resolved c = .value v) (hlist : ∀ r, v ≠ .list r)
      (hdict : ∀ r, v ≠ .dict r) : Harmless h bs c
  | quote {c q : Code} (hc : h.Tagged "quote" c [q]) (hcall : .quote ∈ bs) (hq : h.Quotable q) :
      Harmless h bs c
  | collection {c : Code} {b : Bracket} {cs : List Code} (hc : h.Tagged b.tag c cs)
      (hcall : builtinOf b ∈ bs) (hcs : ∀ e ∈ cs, Harmless h bs e) : Harmless h bs c
  | spread {c : Code} {b : Bracket} {cs : List Code} (hc : h.Tagged b.intoTag c cs)
      (hcall : intoBuiltinOf b ∈ bs) (hcs : ∀ e ∈ cs, Harmless h bs e) : Harmless h bs c

theorem form?_resolved (h : Heap) (c : Code) : h.form? (h.resolved c) = h.form? c := by
  cases c <;> rfl

theorem resolved_resolved (h : Heap) (c : Code) : h.resolved (h.resolved c) = h.resolved c := by
  cases c <;> rfl

theorem resolved_ne_slot (h : Heap) (c : Code) (r : ListRef) (i : Nat) :
    h.resolved c ≠ .slot r i := by
  cases c <;> nofun

theorem resolved_of_symbol? {name : String} (hc : h.symbol? c = some name) :
    h.resolved c = .sym name := by
  unfold symbol? at hc
  split at hc
  · next heq =>
    cases hc
    exact heq
  · cases hc

theorem resolved_of_form? (hc : h.form? c = some cs) :
    (∃ elems, h.resolved c = .form elems) ∨ ∃ r, h.resolved c = .value (.list r) := by
  unfold form? at hc
  split at hc
  · next elems heq => exact .inl ⟨elems, heq⟩
  · next r heq => exact .inr ⟨r, heq⟩
  · cases hc

theorem Tagged.resolved (hc : h.Tagged tag c cs) : h.Tagged tag (h.resolved c) cs := by
  obtain ⟨hd, hform, hhd⟩ := hc
  exact ⟨hd, (form?_resolved h c).trans hform, hhd⟩

theorem Tagged.head?_eq (hc : h.Tagged tag c cs) : (h.form? c).bind h.head? = some tag := by
  obtain ⟨hd, hform, hhd⟩ := hc
  rw [hform]
  exact hhd

theorem Quotable.resolved (hc : h.Quotable c) : h.Quotable (h.resolved c) := by
  cases hc with
  | value hc hv => exact .value ((resolved_resolved h c).trans hc) hv
  | form hc hhead hcs => exact .form ((form?_resolved h c).trans hc) hhead hcs
  | unquote hc he => exact .unquote hc.resolved he

theorem Harmless.resolved (hc : h.Harmless bs c) : h.Harmless bs (h.resolved c) := by
  cases hc with
  | value hc hlist hdict => exact .value ((resolved_resolved h c).trans hc) hlist hdict
  | quote hc hcall hq => exact .quote hc.resolved hcall hq
  | collection hc hcall hcs => exact .collection hc.resolved hcall hcs
  | spread hc hcall hcs => exact .spread hc.resolved hcall hcs

theorem Grown.slots (hgrown : h.Grown h') {r : ListRef} (hr : r.id < h.lists.size) :
    h'.slot r = h.slot r ∧ h'.slots r = h.slots r := by
  have hold := Array.getElem?_eq_getElem hr
  have hlist : h'.list r = h.list r := by
    unfold Heap.list
    rw [hold, hgrown.lists r.id _ hold]
  refine ⟨?_, ?_⟩
  · funext i
    rw [Heap.slot, Heap.slot, hlist]
  · rw [Heap.slots, Heap.slots, Heap.elems, Heap.elems, hlist]

section

variable (hclosed : h.Closed)
include hclosed

theorem Closed.slot (r : ListRef) (i : Nat) : h.HasValue (h.slot r i) := by
  unfold Heap.slot Heap.list
  cases hcell : h.lists[r.id]? with
  | none => exact .atom _
  | some cell =>
    cases hv : cell.slots[i]? with
    | none => simpa [hv] using HasValue.atom _
    | some v =>
      have hmem := hclosed.lists cell (Array.mem_of_getElem? hcell) v (Array.mem_of_getElem? hv)
      simpa [hv] using hmem

theorem HasCode.resolved (hc : h.HasCode c) : h.HasCode (h.resolved c) := by
  cases hc with
  | value hv => exact .value hv
  | form hcs => exact .form hcs
  | slot hr i => exact .value (hclosed.slot _ i)

theorem HasCode.of_form (hc : h.HasCode c) (hform : h.form? c = some cs) : ∀ e ∈ cs, h.HasCode e := by
  have hres := hc.resolved hclosed
  unfold form? at hform
  split at hform
  · next heq =>
    cases hform
    rw [heq] at hres
    cases hres with
    | form hcs => exact hcs
  · next r heq =>
    cases hform
    rw [heq] at hres
    cases hres with
    | value hv =>
      cases hv with
      | list hr =>
        intro e he
        obtain ⟨i, -, rfl⟩ := List.mem_map.mp he
        exact .slot hr i
  · cases hform

theorem HasCode.of_tagged (hc : h.HasCode c) (htagged : h.Tagged tag c cs) : ∀ e ∈ cs, h.HasCode e := by
  obtain ⟨hd, hform, -⟩ := htagged
  exact fun e he => hc.of_form hclosed hform e (List.mem_cons_of_mem hd he)

variable (hgrown : h.Grown h')
include hgrown

omit hclosed in
theorem Grown.resolved (hc : h.HasCode c) : h'.resolved c = h.resolved c := by
  cases hc with
  | value hv => rfl
  | form hcs => rfl
  | slot hr i => rw [Heap.resolved, Heap.resolved, (hgrown.slots hr).1]

theorem Grown.form? (hc : h.HasCode c) : h'.form? c = h.form? c := by
  have hres := hc.resolved hclosed
  rw [Heap.form?, Heap.form?, hgrown.resolved hc]
  split
  · rfl
  · next r heq =>
    rw [heq] at hres
    cases hres with
    | value hv =>
      cases hv with
      | list hr => rw [(hgrown.slots hr).2]
  · rfl

omit hclosed in
theorem Grown.symbol? (hc : h.HasCode c) : h'.symbol? c = h.symbol? c := by
  rw [Heap.symbol?, Heap.symbol?, hgrown.resolved hc]

end

end Heap

namespace EvalM

open Heap (Quotable Harmless builtinOf intoBuiltinOf)

variable {α β : Type} {w : World} {s : ScopeRef} {h : Heap} {bs : List Builtin} {I : World → Prop}
  {E : Fault → Prop} {R : β → Prop} {n : Nat} {c q : Code} {cs : List Code} {v : Value}

theorem resolve_run (c : Code) (w : World) : (resolve c).run w = (.ok (w.heap.resolved c), w) := by
  cases c <;> rfl

theorem formOf?_run (c : Code) (w : World) : (formOf? c).run w = (.ok (w.heap.form? c), w) := by
  rw [formOf?, run_bind, resolve_run]
  unfold Heap.form?
  cases w.heap.resolved c with
  | value v => cases v <;> rfl
  | form elems => rfl
  | slot r i => rfl

theorem symbolOf?_run (c : Code) (w : World) :
    (symbolOf? c).run w = (.ok (w.heap.symbol? c), w) := by
  rw [symbolOf?, run_bind, resolve_run]
  unfold Heap.symbol?
  cases w.heap.resolved c with
  | value v =>
    cases v with
    | atom a => cases a <;> rfl
    | _ => rfl
  | form elems => rfl
  | slot r i => rfl

theorem headOf?_run (cs : List Code) (w : World) :
    (headOf? cs).run w = (.ok (w.heap.head? cs), w) := by
  cases cs with
  | nil => rfl
  | cons c cs => exact symbolOf?_run c w

theorem keeps_read {x : EvalM α} {f : α → EvalM β} {a : α}
    (hx : ∀ w, I w → x.run w = (.ok a, w)) (hf : Keeps I E R (f a)) : Keeps I E R (x >>= f) := by
  intro w hw
  rw [run_bind, hx w hw]
  exact hf w hw

theorem keeps_heap {f : Heap → EvalM β} (hf : ∀ w, I w → Keeps I E R (f w.heap)) :
    Keeps I E R (heap >>= f) := by
  intro w hw
  exact hf w hw w hw

theorem keeps_ofExcept (x : Except Reason α) : Keeps I Anything (x = .ok ·) (ofExcept x) := by
  cases x with
  | ok a => exact Keeps.pure rfl
  | error r => exact Keeps.throw trivial

theorem keeps_fail (r : Reason) : Keeps I Anything R (fail r : EvalM β) := Keeps.throw trivial

theorem keeps_ofOption (x : Option α) : Keeps I Anything Anything (ofOption x) := by
  cases x with
  | some a => exact Keeps.pure trivial
  | none => exact Keeps.throw trivial

theorem keeps_datum (v : Value) : Keeps I Anything Anything (datum v) :=
  keeps_heap fun _ _ => keeps_ofOption _

theorem keeps_withFrame {act : EvalM α} (name : String) (hact : Keeps I Anything Anything act) :
    Keeps I Anything Anything (withFrame name act) := by
  refine hact.tryCatch fun e _ => ?_
  cases e with
  | raised e => exact Keeps.throw trivial
  | crashed => exact Keeps.throw trivial
  | exhausted => exact Keeps.throw trivial

theorem keeps_checkArity (args : List Code) (low high : Int) :
    Keeps I Anything Anything (checkArity args low high) := by
  unfold checkArity
  dsimp only
  split
  · exact keeps_fail _
  · exact Keeps.pure trivial

/-- What holds while code runs that only makes new objects, and where it finds these builtins. -/
structure Shelter (h : Heap) (bs : List Builtin) (s : ScopeRef) (I : World → Prop) : Prop where
  closed : h.Closed
  grown : ∀ {w}, I w → h.Grown w.heap
  visible : ∀ {w}, I w → ∀ b ∈ bs, w.heap.lookup s b.name = some (.builtin b)
  add : ∀ {w} {h' : Heap}, I w → w.heap.Extends h' → h'.layers = w.heap.layers →
    I { w with heap := h' }

namespace Shelter

variable (hI : Shelter h bs s I)
include hI

theorem resolve (hc : h.HasCode c) :
    ∀ w, I w → (EvalM.resolve c).run w = (.ok (h.resolved c), w) := by
  intro w hw
  rw [resolve_run, (hI.grown hw).resolved hc]

theorem formOf? (hc : h.HasCode c) :
    ∀ w, I w → (EvalM.formOf? c).run w = (.ok (h.form? c), w) := by
  intro w hw
  rw [formOf?_run, (hI.grown hw).form? hI.closed hc]

theorem headOf? (hcs : ∀ c ∈ cs, h.HasCode c) :
    ∀ w, I w → (EvalM.headOf? cs).run w = (.ok (h.head? cs), w) := by
  intro w hw
  rw [headOf?_run]
  cases cs with
  | nil => rfl
  | cons c cs =>
    rw [Heap.head?, Heap.head?, List.head?_cons, Option.bind_some, Option.bind_some,
      (hI.grown hw).symbol? (hcs c (by simp))]

theorem newList (vs : List Value) : Keeps I Anything Anything (newList vs) := by
  intro w hw
  exact ⟨hI.add hw (.newList w.heap vs) rfl, trivial⟩

theorem newDict (es : List (Value × Value)) : Keeps I Anything Anything (newDict es) := by
  intro w hw
  exact ⟨hI.add hw (.newDict w.heap es) rfl, trivial⟩

theorem newSet (vs : List Value) : Keeps I Anything Anything (newSet vs) := by
  intro w hw
  exact ⟨hI.add hw (.newSet w.heap vs) rfl, trivial⟩

omit hI in
theorem evalAll {r : Recursor} (hcs : ∀ c ∈ cs, Keeps I Anything Anything (r.eval c s)) :
    Keeps I Anything Anything (evalAll r s cs) := by
  induction cs with
  | nil => exact Keeps.pure trivial
  | cons c cs ih =>
    obtain ⟨hc, hcs⟩ := List.forall_mem_cons.mp hcs
    refine hc.bind fun v _ => (ih hcs).bind fun vs _ => ?_
    exact Keeps.pure trivial

omit hI in
theorem quoteAll {r : Recursor} (hcs : ∀ c ∈ cs, Keeps I Anything Anything (r.quote c s)) :
    Keeps I Anything Anything (quoteAll r s cs) := by
  induction cs with
  | nil => exact Keeps.pure trivial
  | cons c cs ih =>
    obtain ⟨hc, hcs⟩ := List.forall_mem_cons.mp hcs
    refine hc.bind fun v _ => (ih hcs).bind fun vs _ => ?_
    exact Keeps.pure trivial

theorem evalEntries {r : Recursor} (hcs : ∀ c ∈ cs, Keeps I Anything Anything (r.eval c s))
    (acc : List (Value × Value)) : Keeps I Anything Anything (evalEntries r s acc cs) := by
  fun_induction EvalM.evalEntries r s acc cs with
  | case1 acc k v rest ih =>
    obtain ⟨hk, hv, hrest⟩ : Keeps I Anything Anything (r.eval k s) ∧
        Keeps I Anything Anything (r.eval v s) ∧
        ∀ c ∈ rest, Keeps I Anything Anything (r.eval c s) := by
      simpa using hcs
    refine hk.bind fun key _ => hv.bind fun value _ => keeps_heap fun w _ => ?_
    exact (keeps_ofExcept _).bind fun acc _ => ih acc hrest
  | case2 => exact hI.newDict _

theorem makeSet (vs : List Value) : Keeps I Anything Anything (makeSet vs) :=
  keeps_heap fun _ _ => (keeps_ofExcept _).bind fun vs _ => hI.newSet vs

theorem makeDict (vs : List Value) : Keeps I Anything Anything (makeDict vs) := by
  have hcollect : ∀ acc, Keeps I Anything Anything (makeDict.collect acc vs) := by
    induction vs with
    | nil => exact fun acc => hI.newDict acc
    | cons v vs ih =>
      intro acc
      have hpair : Keeps I Anything Anything (pairOf v) := keeps_heap fun w _ => by
        split
        · exact Keeps.pure trivial
        · exact (keeps_datum v).bind fun _ _ => keeps_fail _
      refine hpair.bind fun e _ => keeps_heap fun w _ => ?_
      exact (keeps_ofExcept _).bind fun acc _ => ih acc
  exact hcollect []

omit hI in
theorem collect (vs : List Value) : Keeps I Anything Anything (collect vs) := by
  induction vs with
  | nil => exact Keeps.pure trivial
  | cons v vs ih =>
    refine keeps_heap fun w _ => (keeps_ofExcept _).bind fun elems _ => ih.bind fun rest _ => ?_
    exact Keeps.pure trivial

theorem eval_value (hcode : h.HasCode c) (hc : h.resolved c = .value v) (hlist : ∀ r, v ≠ .list r)
    (hdict : ∀ r, v ≠ .dict r) : Keeps I Anything Anything ((recursor n).eval c s) := by
  cases n with
  | zero => exact Keeps.throw trivial
  | succ n =>
    refine keeps_read (hI.resolve hcode) ?_
    rw [hc]
    cases v with
    | list r => exact absurd rfl (hlist r)
    | dict r => exact absurd rfl (hdict r)
    | atom a =>
      cases a with
      | sym name =>
        refine keeps_heap fun w _ => ?_
        split
        · exact Keeps.pure trivial
        · exact keeps_fail _
      | _ => exact Keeps.pure trivial
    | _ => exact Keeps.pure trivial

theorem eval_builtin {b : Builtin} (hcode : h.HasCode c) (hc : h.symbol? c = some b.name)
    (hb : b ∈ bs) : Keeps I Anything (· = .builtin b) ((recursor n).eval c s) := by
  cases n with
  | zero => exact Keeps.throw trivial
  | succ n =>
    refine keeps_read (hI.resolve hcode) ?_
    rw [Heap.resolved_of_symbol? hc]
    refine keeps_heap fun w hw => ?_
    rw [hI.visible hw b hb]
    exact Keeps.pure rfl

theorem quoteForm {r : Recursor} (hcode : h.HasCode c)
    (hquote : ∀ q, h.HasCode q → h.Quotable q → Keeps I Anything Anything (r.quote q s))
    (heval : ∀ e name, h.HasCode e → h.resolved e = .sym name →
      Keeps I Anything Anything (r.eval e s)) (hform : h.form? c = some cs) (hq : h.Quotable c) :
    Keeps I Anything Anything (quoteStep.quoteForm r s c) := by
  have hcs := hcode.of_form hI.closed hform
  refine keeps_read (hI.formOf? hcode) ?_
  rw [hform, Option.getD_some]
  refine keeps_read (hI.headOf? hcs) ?_
  cases hq with
  | value hc hv =>
    rcases Heap.resolved_of_form? hform with ⟨elems, heq⟩ | ⟨r, heq⟩
    · cases hc.symm.trans heq
    · cases hc.symm.trans heq
      exact absurd rfl (hv r)
  | form hc hhead hqs =>
    obtain rfl : cs = _ := Option.some.inj (hform.symm.trans hc)
    rw [if_neg hhead]
    refine (Shelter.quoteAll fun q hmem => hquote q (hcs q hmem) (hqs q hmem)).bind fun vs _ => ?_
    exact hI.newList vs
  | @unquote _ e name hc he =>
    obtain ⟨hd, hc, hhd⟩ := hc
    obtain rfl : cs = _ := Option.some.inj (hform.symm.trans hc)
    have hhead : h.head? [hd, e] = some "unquote" := hhd
    rw [if_pos hhead]
    exact heval e name (hcs e (by simp)) (Heap.resolved_of_symbol? he)

theorem quote (hcode : h.HasCode q) (hq : h.Quotable q) :
    Keeps I Anything Anything ((recursor n).quote q s) := by
  induction n generalizing q with
  | zero => exact Keeps.throw trivial
  | succ n ih =>
    have heval : ∀ e name, h.HasCode e → h.resolved e = .sym name →
        Keeps I Anything Anything ((recursor n).eval e s) :=
      fun e name he hname => hI.eval_value he hname (fun _ => nofun) fun _ => nofun
    have hform {cs : List Code} (hform : h.form? q = some cs) :
        Keeps I Anything Anything (quoteStep.quoteForm (recursor n) s (h.resolved q)) :=
      hI.quoteForm (hcode.resolved hI.closed) (fun q => ih) heval
        ((Heap.form?_resolved h q).trans hform) hq.resolved
    refine keeps_read (hI.resolve hcode) ?_
    cases hres : h.resolved q with
    | form elems =>
      rw [hres] at hform
      exact hform (show h.form? q = some elems by rw [Heap.form?, hres])
    | slot r i => exact (Heap.resolved_ne_slot h q r i hres).elim
    | value v =>
      rw [hres] at hform
      cases v with
      | list r => exact hform (by rw [Heap.form?, hres])
      | _ => exact Keeps.pure trivial

theorem evalForm {r : Recursor} {b : Builtin} (hcode : h.HasCode c) (hc : h.Tagged b.name c cs)
    (hhead : ∀ hd, h.HasCode hd → h.symbol? hd = some b.name →
      Keeps I Anything (· = .builtin b) (r.eval hd s))
    (hcall : Keeps I Anything Anything (callBuiltin r b cs s)) :
    Keeps I Anything Anything (evalForm r c s) := by
  obtain ⟨hd, hform, hhd⟩ := hc
  have hcs := hcode.of_form hI.closed hform
  refine keeps_read (hI.formOf? hcode) ?_
  rw [hform]
  refine (hhead hd (hcs hd (by simp)) hhd).bind fun v hv => ?_
  subst hv
  refine keeps_read (hI.formOf? hcode) ?_
  rw [hform]
  exact keeps_withFrame b.name hcall

omit hI in
theorem callStrict {r : Recursor} {op : StrictOp}
    (hcs : ∀ c ∈ cs, Keeps I Anything Anything (r.eval c s))
    (hop : ∀ vs, Keeps I Anything Anything (applyStrict op vs)) :
    Keeps I Anything Anything (callStrict r op cs s) :=
  (keeps_checkArity _ _ _).bind fun _ _ => (Shelter.evalAll hcs).bind fun vs _ => hop vs

theorem callBuiltin_collection {r : Recursor} (b : Bracket)
    (hcs : ∀ c ∈ cs, Keeps I Anything Anything (r.eval c s)) :
    Keeps I Anything Anything (callBuiltin r (builtinOf b) cs s) := by
  cases b with
  | list => exact Shelter.callStrict hcs hI.newList
  | tuple => exact Shelter.callStrict hcs fun _ => Keeps.pure trivial
  | set => exact Shelter.callStrict hcs hI.makeSet
  | dict =>
    change Keeps I Anything Anything (callDict r cs s)
    unfold callDict
    split
    · exact keeps_fail _
    · exact hI.evalEntries hcs []

theorem callBuiltin_spread {r : Recursor} (b : Bracket)
    (hcs : ∀ c ∈ cs, Keeps I Anything Anything (r.eval c s)) :
    Keeps I Anything Anything (callBuiltin r (intoBuiltinOf b) cs s) := by
  cases b with
  | list =>
    exact Shelter.callStrict hcs fun vs => (Shelter.collect vs).bind fun elems _ => hI.newList elems
  | tuple =>
    exact Shelter.callStrict hcs fun vs => (Shelter.collect vs).bind fun _ _ => Keeps.pure trivial
  | set =>
    exact Shelter.callStrict hcs fun vs => (Shelter.collect vs).bind fun elems _ => hI.makeSet elems
  | dict =>
    exact Shelter.callStrict hcs fun vs => (Shelter.collect vs).bind fun elems _ => hI.makeDict elems

/-- **Harmless expressions.** What holds while new objects are made holds after evaluating a literal, a
symbol or a pin of a symbol, whether that fails or not. -/
theorem eval (hcode : h.HasCode c) (hc : h.Harmless bs c) :
    Keeps I Anything Anything ((recursor n).eval c s) := by
  induction n generalizing c with
  | zero => exact Keeps.throw trivial
  | succ n ih =>
    have hbuiltin {b : Builtin} {cs : List Code} (hb : b ∈ bs) (hc : h.Tagged b.name c cs)
        (hcall : Keeps I Anything Anything (callBuiltin (recursor n) b cs s)) :
        Keeps I Anything Anything ((recursor (n + 1)).eval c s) := by
      have hcall := hI.evalForm (hcode.resolved hI.closed) hc.resolved
        (fun hd hcode hhd => hI.eval_builtin hcode hhd hb) hcall
      obtain ⟨hd, hform, -⟩ := hc
      refine keeps_read (hI.resolve hcode) ?_
      rcases Heap.resolved_of_form? hform with ⟨elems, heq⟩ | ⟨r, heq⟩
      · rw [heq] at hcall ⊢
        exact hcall
      · rw [heq] at hcall ⊢
        exact hcall
    cases hc with
    | value hc hlist hdict => exact hI.eval_value hcode hc hlist hdict
    | @quote _ q hc hcall hq =>
      refine hbuiltin hcall hc ((keeps_checkArity _ _ _).bind fun _ _ => ?_)
      exact hI.quote (hcode.of_tagged hI.closed hc q (by simp)) hq
    | @collection _ b cs hc hcall hcs =>
      have hname : (builtinOf b).name = b.tag := by
        cases b <;> rfl
      refine hbuiltin hcall (hname.symm ▸ hc) (hI.callBuiltin_collection b fun e he => ?_)
      exact ih (hcode.of_tagged hI.closed hc e he) (hcs e he)
    | @spread _ b cs hc hcall hcs =>
      have hname : (intoBuiltinOf b).name = b.intoTag := by
        cases b <;> rfl
      refine hbuiltin hcall (hname.symm ▸ hc) (hI.callBuiltin_spread b fun e he => ?_)
      exact ih (hcode.of_tagged hI.closed hc e he) (hcs e he)

end Shelter

end EvalM

end EventTally
