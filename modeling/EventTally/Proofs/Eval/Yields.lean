import EventTally.Proofs.Eval.Invariant

/-! # Results that do not depend on the fuel

With more fuel an evaluation that succeeds does the same. So what it yields with some amount of fuel is
what it yields with any that is enough, and the fuel need not be mentioned.
-/

namespace EventTally.EvalM

variable {α β : Type} {x : Recursor → EvalM α} {f : Recursor → α → EvalM β} {w w₁ w₂ : World}

/-- The computation succeeds with some amount of fuel. -/
def Yields (x : Recursor → EvalM α) (w : World) (a : α) (w₁ : World) : Prop :=
  ∃ n, (x (recursor n)).run w = (.ok a, w₁)

/-- Lack of fuel is the only fault that ends the comparison. -/
abbrev patience : Contract := invariant_anything.relating (· = .exhausted) Eq

/-- With more fuel the computation does the same, unless it gives up for lack of it. -/
def Patient (x : Recursor → EvalM α) : Prop :=
  ∀ m n, m ≤ n → patience.Accords Anything (x (recursor m)) (x (recursor n))

theorem framed_patience : patience.Framed := by
  refine ⟨?_, ?_⟩
  · rintro name fault rfl
    rfl
  · rintro name fault _ rfl
    rfl

theorem accord_patience {m n : Nat} (hle : m ≤ n) : (recursor m).Accord (recursor n) patience :=
  Contract.accord_of_le (invariant_anything.lawful (fun _ => rfl) rfl rfl) framed_patience rfl hle

theorem patient_eval (c : Code) (s : ScopeRef) : Patient fun r => r.eval c s :=
  fun _ _ hle => ((accord_patience hle).eval trivial (invariant_anything.runs c)).mono fun _ _ => trivial

theorem patient_evalAll (s : ScopeRef) (cs : List Code) : Patient fun r => evalAll r s cs := by
  intro m n hle
  have haccords := Contract.accords_evalAll (s := s) (accord_patience hle) trivial
    fun c (_ : c ∈ cs) => invariant_anything.runs c
  rw [invariant_anything.map_code] at haccords
  exact haccords.mono fun _ _ => trivial

theorem patient_const (act : EvalM α) : Patient fun _ => act := by
  intro _ _ _
  refine invariant_anything.accords_iff.mpr fun w _ => ?_
  rcases hrun : act.run w with ⟨e | a, w'⟩
  · exact .inr ⟨e, rfl, trivial, rfl⟩
  · exact ⟨rfl, trivial, trivial⟩

theorem Patient.bind (hx : Patient x) (hf : ∀ a, Patient (f · a)) : Patient fun r => x r >>= f r :=
  fun m n hle => (hx m n hle).bind fun a _ => hf a m n hle

theorem Patient.run_eq (hx : Patient x) {m n : Nat} (hle : m ≤ n) {a : α}
    (h : (x (recursor m)).run w = (.ok a, w₁)) : (x (recursor n)).run w = (.ok a, w₁) := by
  have houtcome := hx m n hle w trivial
  rw [h] at houtcome
  exact houtcome.1

theorem Yields.unique (hx : Patient x) {a b : α} (h₁ : Yields x w a w₁) (h₂ : Yields x w b w₂) :
    a = b ∧ w₁ = w₂ := by
  obtain ⟨m, hm⟩ := h₁
  obtain ⟨n, hn⟩ := h₂
  have hm' := hx.run_eq (le_max_left m n) hm
  have hn' := hx.run_eq (le_max_right m n) hn
  rw [hm'] at hn'
  obtain ⟨heq, rfl⟩ := Prod.mk.inj hn'
  exact ⟨Except.ok.inj heq, rfl⟩

theorem Yields.pure (a : α) : Yields (fun _ => Pure.pure a) w a w := ⟨0, rfl⟩

theorem yields_bind (hx : Patient x) (hf : ∀ a, Patient (f · a)) {b : β} :
    Yields (fun r => x r >>= f r) w b w₂ ↔ ∃ a w₁, Yields x w a w₁ ∧ Yields (f · a) w₁ b w₂ := by
  constructor
  · rintro ⟨n, hn⟩
    rw [run_bind] at hn
    split at hn
    · next a w₁ hrun => exact ⟨a, w₁, ⟨n, hrun⟩, n, hn⟩
    · cases hn
  · rintro ⟨a, w₁, ⟨m, hm⟩, n, hn⟩
    refine ⟨max m n, ?_⟩
    rw [run_bind, hx.run_eq (le_max_left m n) hm]
    exact (hf a).run_eq (le_max_right m n) hn

variable {s : ScopeRef} {n : Nat}

theorem run_eval_sym {name : String} {v : Value} (h : w.heap.lookup s name = some v) :
    ((recursor (n + 1)).eval (.sym name) s).run w = (.ok v, w) := by
  have hresolve : (resolve (.sym name)).run w = (.ok (.sym name), w) := rfl
  have hheap : EvalM.heap.run w = (.ok w.heap, w) := rfl
  change (evalStep (recursor n) (.sym name) s).run w = _
  unfold evalStep
  rw [run_bind, hresolve]
  dsimp only
  rw [run_bind, hheap]
  dsimp only
  rw [h]
  rfl

theorem run_eval_builtin {b : Builtin} {name : String}
    (h : w.heap.lookup s name = some (.builtin b)) (args : List Code) :
    ((recursor (n + 2)).eval (.form (.sym name :: args)) s).run w =
      (withFrame b.name (callBuiltin (recursor (n + 1)) b args s)).run w := by
  have hform : (formOf? (.form (.sym name :: args))).run w = (.ok (some (.sym name :: args)), w) := rfl
  change (evalForm (recursor (n + 1)) (.form (.sym name :: args)) s).run w = _
  unfold evalForm
  rw [run_bind, hform]
  dsimp only
  rw [run_bind, run_eval_sym h]
  dsimp only
  rw [run_bind, hform]
  rfl

theorem yields_bind_const (hx : Patient x) {g : α → EvalM β} {b : β} :
    Yields (fun r => x r >>= g) w b w₂ ↔
      ∃ a w₁, Yields x w a w₁ ∧ (g a).run w₁ = (.ok b, w₂) := by
  rw [yields_bind hx fun a => patient_const (g a)]
  refine exists_congr fun a => exists_congr fun w₁ => and_congr_right fun _ => ?_
  exact ⟨fun ⟨_, h⟩ => h, fun h => ⟨0, h⟩⟩

theorem yields_evalAll_nil {vs : List Value} :
    Yields (fun r => evalAll r s []) w vs w₁ ↔ vs = [] ∧ w₁ = w := by
  constructor
  · rintro ⟨n, hn⟩
    obtain ⟨heq, rfl⟩ := Prod.mk.inj hn
    exact ⟨(Except.ok.inj heq).symm, rfl⟩
  · rintro ⟨rfl, rfl⟩
    exact .pure []

theorem yields_evalAll_cons {c : Code} {cs : List Code} {vs : List Value} :
    Yields (fun r => evalAll r s (c :: cs)) w vs w₂ ↔ ∃ v vs' w₁, vs = v :: vs' ∧
      Yields (fun r => r.eval c s) w v w₁ ∧ Yields (fun r => evalAll r s cs) w₁ vs' w₂ := by
  have hrest (v : Value) : Patient fun r => evalAll r s cs >>= fun vs => Pure.pure (v :: vs) :=
    (patient_evalAll s cs).bind fun vs => patient_const _
  change Yields (fun r => r.eval c s >>= fun v => evalAll r s cs >>= fun vs => Pure.pure (v :: vs))
    w vs w₂ ↔ _
  rw [yields_bind (patient_eval c s) hrest]
  constructor
  · rintro ⟨v, w₁, hv, hvs⟩
    obtain ⟨vs', w', hrest, hrun⟩ := (yields_bind_const (patient_evalAll s cs)).mp hvs
    obtain ⟨heq, rfl⟩ := Prod.mk.inj hrun
    exact ⟨v, vs', w₁, (Except.ok.inj heq).symm, hv, hrest⟩
  · rintro ⟨v, vs', w₁, rfl, hv, hvs⟩
    exact ⟨v, w₁, hv, (yields_bind_const (patient_evalAll s cs)).mpr ⟨vs', w₂, hvs, rfl⟩⟩

theorem yields_evalAll_append {cs cs' : List Code} {vs : List Value} :
    Yields (fun r => evalAll r s (cs ++ cs')) w vs w₂ ↔ ∃ us us' w₁, vs = us ++ us' ∧
      Yields (fun r => evalAll r s cs) w us w₁ ∧ Yields (fun r => evalAll r s cs') w₁ us' w₂ := by
  induction cs generalizing w vs with
  | nil =>
    simp only [List.nil_append, yields_evalAll_nil]
    constructor
    · exact fun h => ⟨[], vs, w, rfl, ⟨rfl, rfl⟩, h⟩
    · rintro ⟨_, us', _, rfl, ⟨rfl, rfl⟩, h⟩
      exact h
  | cons c cs ih =>
    rw [List.cons_append, yields_evalAll_cons]
    constructor
    · rintro ⟨v, vs', w₀, rfl, hv, hvs⟩
      obtain ⟨us, us', w₁, rfl, hus, hus'⟩ := ih.mp hvs
      exact ⟨v :: us, us', w₁, rfl, yields_evalAll_cons.mpr ⟨v, us, w₀, rfl, hv, hus⟩, hus'⟩
    · rintro ⟨_, us', w₁, rfl, hus, hus'⟩
      obtain ⟨v, us, w₀, rfl, hv, hus⟩ := yields_evalAll_cons.mp hus
      exact ⟨v, us ++ us', w₀, rfl, hv, ih.mpr ⟨us, us', w₁, rfl, hus, hus'⟩⟩

theorem length_of_yields {cs : List Code} {vs : List Value}
    (h : Yields (fun r => evalAll r s cs) w vs w₁) : vs.length = cs.length := by
  induction cs generalizing w vs with
  | nil => rw [(yields_evalAll_nil.mp h).1, List.length_nil, List.length_nil]
  | cons c cs ih =>
    obtain ⟨v, vs', w', rfl, -, hvs⟩ := yields_evalAll_cons.mp h
    rw [List.length_cons, List.length_cons, ih hvs]

end EventTally.EvalM
