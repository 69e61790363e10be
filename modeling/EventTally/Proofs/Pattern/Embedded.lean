import EventTally.Proofs.Eval.Harmless

/-! # What a pattern consists of

Matching a pattern matches the patterns in it, at any depth, and evaluates the expressions that are
embedded in it: what is no symbol and no literal, the keys of dict patterns and the members of set
patterns.
-/

namespace EventTally.Heap

variable {h : Heap} {k k' : Bool} {tag tag' x : String} {c e p q : Code} {cs cs' : List Code}

def pairs : List Code → List (Code × Code)
  | k :: p :: rest => (k, p) :: pairs rest
  | _ => []

theorem mem_of_pairs {e : Code × Code} (he : e ∈ pairs cs) : e.1 ∈ cs ∧ e.2 ∈ cs := by
  fun_induction pairs cs with
  | case1 k p rest ih =>
    rcases List.mem_cons.mp he with rfl | he
    · simp
    · obtain ⟨hk, hp⟩ := ih he
      simp [hk, hp]
  | case2 => cases he

/-- Matching the pattern `c` matches the pattern `p` directly in it, against what a spread takes if the
flag is set. -/
inductive Inner (h : Heap) (c : Code) : Bool → Code → Prop
  | element {b : Bracket} {cs : List Code} {p : Code} (hb : b = .list ∨ b = .tuple)
      (hc : h.Tagged b.tag c cs) (hp : p ∈ cs) : Inner h c false p
  | value {cs : List Code} {e : Code × Code} (hc : h.Tagged "dict" c cs) (he : e ∈ pairs cs) :
      Inner h c false e.2
  | chunk {b : Bracket} {cs : List Code} {p : Code} (hc : h.Tagged b.intoTag c cs) (hp : p ∈ cs) :
      Inner h c true p

/-- Matching the pattern `c` matches `p`, at any depth. -/
inductive Subpattern (h : Heap) : Bool → Code → Bool → Code → Prop
  | self (k : Bool) (c : Code) : Subpattern h k c k c
  | inner {k k' k'' : Bool} {c p q : Code} (hinner : Inner h c k' p)
      (hsub : Subpattern h k' p k'' q) : Subpattern h k c k'' q

/-- Matching the pattern evaluates the expression, apart from what the patterns in it do. -/
inductive Evaluates (h : Heap) (c : Code) : Code → Prop
  | literal (hsym : h.symbol? c = none) (hplain : ∀ b cs, ¬ h.Tagged (Bracket.tag b) c cs)
      (hinto : ∀ b cs, ¬ h.Tagged (Bracket.intoTag b) c cs) : Evaluates h c c
  | key {cs : List Code} {e : Code × Code} (hc : h.Tagged "dict" c cs) (he : e ∈ pairs cs) :
      Evaluates h c e.1
  | member {cs : List Code} {e : Code} (hc : h.Tagged "set" c cs) (he : e ∈ cs) : Evaluates h c e

/-- The expression is embedded in the pattern. -/
def Embeds (h : Heap) (pattern e : Code) : Prop :=
  ∃ k p, h.Subpattern false pattern k p ∧ h.Evaluates p e

theorem Subpattern.start (hsub : h.Subpattern k c k' q) : ∃ k'', h.Subpattern false c k'' q := by
  cases hsub with
  | self => exact ⟨false, .self false c⟩
  | inner hinner hsub => exact ⟨k', .inner hinner hsub⟩

theorem Embeds.cases (he : h.Embeds c e) :
    h.Evaluates c e ∨ ∃ k p, h.Inner c k p ∧ h.Embeds p e := by
  obtain ⟨k, q, hsub, heval⟩ := he
  cases hsub with
  | self => exact .inl heval
  | inner hinner hsub =>
    obtain ⟨k', hsub⟩ := hsub.start
    exact .inr ⟨_, _, hinner, k', q, hsub, heval⟩

/-- The pattern binds the name, as a spread if the flag is set. -/
def Binds (h : Heap) (pattern : Code) (spread : Bool) (name : String) : Prop :=
  ∃ p, h.Subpattern false pattern spread p ∧ h.symbol? p = some name ∧ name ≠ "_"

theorem tagged_form (hc : h.Tagged tag' (.form (.sym tag :: cs)) cs') : tag' = tag ∧ cs' = cs := by
  obtain ⟨hd, hform, hhd⟩ := hc
  cases hform
  exact ⟨(Option.some.inj hhd).symm, rfl⟩

theorem not_tagged_sym : ¬ h.Tagged tag (.sym x) cs := by
  rintro ⟨hd, hform, -⟩
  cases hform

theorem not_inner_sym : ¬ h.Inner (.sym x) k p := by
  intro hinner
  cases hinner with
  | element _ hc => exact not_tagged_sym hc
  | value hc => exact not_tagged_sym hc
  | chunk hc => exact not_tagged_sym hc

theorem not_embeds_sym : ¬ h.Embeds (.sym x) e := by
  intro he
  rcases he.cases with heval | ⟨k, p, hinner, -⟩
  · cases heval with
    | literal hsym => cases hsym
    | key hc => exact not_tagged_sym hc
    | member hc => exact not_tagged_sym hc
  · exact not_inner_sym hinner

theorem Evaluates.of_form (heval : h.Evaluates (.form (.sym tag :: cs)) e) :
    e = .form (.sym tag :: cs) ∧ (∀ b : Bracket, tag ≠ b.tag ∧ tag ≠ b.intoTag) ∨
      tag = "dict" ∨ tag = "set" := by
  cases heval with
  | literal _ hplain hinto =>
    refine .inl ⟨rfl, fun b => ⟨?_, ?_⟩⟩
    · rintro rfl
      exact hplain b cs ⟨_, rfl, rfl⟩
    · rintro rfl
      exact hinto b cs ⟨_, rfl, rfl⟩
  | key hc => exact .inr (.inl (tagged_form hc).1.symm)
  | member hc => exact .inr (.inr (tagged_form hc).1.symm)

theorem Inner.of_form (hinner : h.Inner (.form (.sym tag :: cs)) k p) :
    p ∈ cs ∧ ∃ b : Bracket, tag = b.tag ∨ tag = b.intoTag := by
  cases hinner with
  | @element b _ _ _ hc hp =>
    obtain ⟨rfl, rfl⟩ := tagged_form hc
    exact ⟨hp, b, .inl rfl⟩
  | value hc he =>
    obtain ⟨rfl, rfl⟩ := tagged_form hc
    exact ⟨(mem_of_pairs he).2, .dict, .inl rfl⟩
  | @chunk b _ _ hc hp =>
    obtain ⟨rfl, rfl⟩ := tagged_form hc
    exact ⟨hp, b, .inr rfl⟩

theorem Subpattern.of_form (hsub : h.Subpattern k (.form (.sym tag :: cs)) k' q)
    (hq : h.symbol? q = some x) :
    (∃ b : Bracket, tag = b.tag ∨ tag = b.intoTag) ∧ ∃ p ∈ cs, ∃ k'', h.Subpattern k'' p k' q := by
  cases hsub with
  | self => cases hq
  | inner hinner hsub =>
    obtain ⟨hmem, hb⟩ := hinner.of_form
    exact ⟨hb, _, hmem, _, hsub⟩

theorem eq_of_embeds_pin (he : h.Embeds (.form [.sym "quote", c]) e) :
    e = .form [.sym "quote", c] := by
  rcases he.cases with heval | ⟨k, p, hinner, -⟩
  · rcases heval.of_form with ⟨rfl, -⟩ | htag | htag
    · rfl
    · exact absurd htag (by decide)
    · exact absurd htag (by decide)
  · obtain ⟨-, b, htag⟩ := hinner.of_form
    exact absurd htag (by cases b <;> decide)

theorem embeds_of_list (htag : tag = "list" ∨ tag = "into_list")
    (he : h.Embeds (.form (.sym tag :: cs)) e) : ∃ p ∈ cs, h.Embeds p e := by
  rcases he.cases with heval | ⟨k, p, hinner, hp⟩
  · rcases heval.of_form with ⟨-, hno⟩ | rfl | rfl
    · obtain ⟨hplain, hinto⟩ := hno .list
      rcases htag with htag | htag
      · exact absurd htag hplain
      · exact absurd htag hinto
    · exact absurd htag (by decide)
    · exact absurd htag (by decide)
  · exact ⟨p, hinner.of_form.1, hp⟩

end EventTally.Heap
