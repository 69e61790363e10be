import EventTally.Proofs.Pattern.Instance

/-! # Solving a pattern for a datum

`Pattern.solve?` takes a datum apart along a pattern and gives what each symbol takes. It gives an
assignment if and only if the pattern has an instance that is equal to the datum (`solve_sound`,
`solve_complete`), and that assignment is the only one up to equality.
-/

namespace EventTally

namespace Scalar

theorem pairwise_insertElem (a : Atom) {acc : List Atom}
    (h : acc.Pairwise fun b c => (Datum.atom b).sameKey (.atom c) = false) :
    (Keyed.insertElem (fun b => (Datum.atom a).sameKey (.atom b)) a acc).Pairwise
      fun b c => (Datum.atom b).sameKey (.atom c) = false := by
  have hmem : ∀ {acc : List Atom} {b}, b ∈ Keyed.insertElem
      (fun b => (Datum.atom a).sameKey (.atom b)) a acc → b = a ∨ b ∈ acc := Codec.mem_insertElem
  induction h with
  | nil => exact List.pairwise_singleton _ _
  | @cons b acc hhead hacc ih =>
    unfold Keyed.insertElem
    split
    · next hab =>
      -- What is the same as the new member is the same as the one that it replaces.
      refine .cons (fun c hc => Bool.eq_false_iff.mpr fun hac => ?_) hacc
      have hbc := hhead c hc
      rw [Datum.sameKey_of_both hab hac] at hbc
      cases hbc
    · next hab =>
      refine .cons (fun c hc => ?_) ih
      rcases hmem hc with rfl | hc
      · rw [Datum.sameKey_atom_comm]
        exact Bool.eq_false_iff.mpr hab
      · exact hhead c hc

theorem pairwise_distinct (as : List Scalar) :
    (distinct as).Pairwise fun b c => (Datum.atom b).sameKey (.atom c) = false := by
  have hfold : ∀ acc : List Atom, (acc.Pairwise fun b c => (Datum.atom b).sameKey (.atom c) = false) →
      (as.foldl (fun acc a => Keyed.insertElem (fun b => a.datum.sameKey (.atom b)) a.atom acc)
        acc).Pairwise fun b c => (Datum.atom b).sameKey (.atom c) = false := by
    induction as with
    | nil => exact fun acc hacc => hacc
    | cons a as ih => exact fun acc hacc => ih _ (pairwise_insertElem a.atom hacc)
  exact hfold [] .nil

end Scalar

namespace Pattern

/-- What the symbols of a pattern take, in the order of their places. -/
abbrev Assignment := List (String × Datum)

def take (x : String) (d : Datum) : Assignment := if x = "_" then [] else [(x, d)]

def takeRest (rest : Option String) (d : Datum) : Assignment := rest.toList.flatMap (take · d)

/-- Whether a literal that names `n` elements may match a collection of `size` elements: without a
spread it must name all. -/
def covers (rest : Option String) (n size : Nat) : Bool := rest.isSome || n == size

def keys (es : List (Scalar × Pattern)) : List Atom := es.map fun e => e.1.atom

mutual

def solve? : Pattern → Datum → Option Assignment
  | .sym x, d => some (take x d)
  | .literal a, d => if d.equal a.datum then some [] else none
  | .list ps rest, .list ds =>
    if covers rest ps.length ds.length then
      (solveAll ps ds).map (· ++ takeRest rest (.list (ds.drop ps.length)))
    else none
  | .tuple ps rest, .tuple ds =>
    if covers rest ps.length ds.length then
      (solveAll ps ds).map (· ++ takeRest rest (.tuple (ds.drop ps.length)))
    else none
  | .dict es rest, .dict entries =>
    if covers rest es.length entries.length then
      (solveEntries es entries).map (· ++ takeRest rest (.dict (Datum.without Prod.fst (keys es) entries)))
    else none
  | .set as rest, .set ds =>
    if covers rest (Scalar.distinct as).length ds.length &&
        (Scalar.distinct as).all fun a => ds.any (Datum.atom a).sameKey then
      some (takeRest rest (.set (Datum.without id (Scalar.distinct as) ds)))
    else none
  | _, _ => none

def solveAll : List Pattern → List Datum → Option Assignment
  | [], _ => some []
  | p :: ps, d :: ds => do return (← p.solve? d) ++ (← solveAll ps ds)
  | _ :: _, [] => none

def solveEntries : List (Scalar × Pattern) → List (Datum × Datum) → Option Assignment
  | [], _ => some []
  | (k, p) :: es, entries => do
    let d ← Keyed.find? k.datum.sameKey entries
    return (← p.solve? d) ++ (← solveEntries es entries)

end

variable {τ : String → Datum} {σ : Assignment} {P : Pattern} {d : Datum}

theorem mem_take {e : String × Datum} {x : String} : e ∈ take x d ↔ x ≠ "_" ∧ e = (x, d) := by
  unfold take
  split <;> simp_all

theorem mem_takeRest {e : String × Datum} {rest : Option String} :
    e ∈ takeRest rest d ↔ ∃ x ∈ rest, x ≠ "_" ∧ e = (x, d) := by
  simp only [takeRest, List.mem_flatMap, Option.mem_toList, mem_take, Option.mem_def]

theorem takeRest_none (d : Datum) : takeRest none d = [] := rfl

theorem takeRest_some (x : String) (d : Datum) : takeRest (some x) d = take x d := List.append_nil _

theorem covers_none (n size : Nat) : covers none n size = true ↔ n = size := beq_iff_eq

theorem covers_some (x : String) (n size : Nat) : covers (some x) n size = true := rfl

theorem solveAll_cons {p : Pattern} {ps : List Pattern} {ds : List Datum}
    (h : solveAll (p :: ps) ds = some σ) : ∃ d ds' σ₁ σ₂, ds = d :: ds' ∧ p.solve? d = some σ₁ ∧
      solveAll ps ds' = some σ₂ ∧ σ = σ₁ ++ σ₂ := by
  cases ds with
  | nil => cases h
  | cons d ds =>
    rw [solveAll] at h
    obtain ⟨σ₁, h₁, h⟩ := Option.bind_eq_some_iff.mp h
    obtain ⟨σ₂, h₂, h⟩ := Option.bind_eq_some_iff.mp h
    exact ⟨d, ds, σ₁, σ₂, rfl, h₁, h₂, (Option.some.inj h).symm⟩

theorem solveEntries_cons {k : Scalar} {p : Pattern} {es : List (Scalar × Pattern)}
    {entries : List (Datum × Datum)} (h : solveEntries ((k, p) :: es) entries = some σ) :
    ∃ d σ₁ σ₂, Keyed.find? k.datum.sameKey entries = some d ∧ p.solve? d = some σ₁ ∧
      solveEntries es entries = some σ₂ ∧ σ = σ₁ ++ σ₂ := by
  rw [solveEntries] at h
  obtain ⟨d, hd, h⟩ := Option.bind_eq_some_iff.mp h
  obtain ⟨σ₁, h₁, h⟩ := Option.bind_eq_some_iff.mp h
  obtain ⟨σ₂, h₂, h⟩ := Option.bind_eq_some_iff.mp h
  exact ⟨d, σ₁, σ₂, hd, h₁, h₂, (Option.some.inj h).symm⟩

theorem solveAll_take (ps : List Pattern) (ds : List Datum) :
    solveAll ps (ds.take ps.length) = solveAll ps ds := by
  induction ps generalizing ds with
  | nil => rw [solveAll, solveAll]
  | cons p ps ih =>
    cases ds with
    | nil => rfl
    | cons d ds => rw [List.length_cons, List.take_succ_cons, solveAll, solveAll, ih]

theorem solveAll_eq_none {ps : List Pattern} {ds : List Datum} (h : ds.length < ps.length) :
    solveAll ps ds = none := by
  cases hsolve : solveAll ps ds with
  | none => rfl
  | some σ =>
    induction ps generalizing ds σ with
    | nil => cases h
    | cons p ps ih =>
      obtain ⟨d, ds, σ₁, σ₂, rfl, h₁, h₂, rfl⟩ := solveAll_cons hsolve
      cases ih (Nat.lt_of_succ_lt_succ h) σ₂ h₂

theorem solveEntries_cons_eq (e : Scalar × Pattern) (es : List (Scalar × Pattern))
    (entries : List (Datum × Datum)) : solveEntries (e :: es) entries = do
      return (← (Keyed.find? e.1.datum.sameKey entries).bind e.2.solve?) ++ (← solveEntries es entries) := by
  rw [solveEntries]
  cases Keyed.find? e.1.datum.sameKey entries <;> rfl

theorem solveEntries_perm {es es' : List (Scalar × Pattern)} (h : es.Perm es')
    (entries : List (Datum × Datum)) :
    Option.Rel List.Perm (solveEntries es entries) (solveEntries es' entries) := by
  induction h with
  | nil =>
    rw [solveEntries]
    exact .some (.refl _)
  | @cons e es es' _ ih =>
    rw [solveEntries_cons_eq, solveEntries_cons_eq]
    cases (Keyed.find? e.1.datum.sameKey entries).bind e.2.solve? with
    | none => exact .none
    | some σ =>
      generalize solveEntries es entries = o, solveEntries es' entries = o' at ih
      cases ih with
      | none => exact .none
      | some hperm => exact .some (hperm.append_left σ)
  | swap e e' es =>
    simp only [solveEntries_cons_eq]
    rcases (Keyed.find? e.1.datum.sameKey entries).bind e.2.solve? with _ | σ <;>
      rcases (Keyed.find? e'.1.datum.sameKey entries).bind e'.2.solve? with _ | σ' <;>
      rcases solveEntries es entries with _ | τ
    case some.some.some =>
      refine .some ?_
      rw [← List.append_assoc, ← List.append_assoc]
      exact List.perm_append_comm.append_right τ
    all_goals exact .none
  | @trans es₁ es₂ es₃ _ _ ih ih' =>
    generalize solveEntries es₁ entries = o₁, solveEntries es₂ entries = o₂,
      solveEntries es₃ entries = o₃ at *
    cases ih with
    | none => exact ih'
    | some hperm =>
      cases ih' with
      | some hperm' => exact .some (hperm.trans hperm')

inductive Solved : Pattern → Datum → Assignment → Prop
  | sym (x : String) (d : Datum) : Solved (.sym x) d (take x d)
  | literal {a : Scalar} {d : Datum} (h : d.equal a.datum = true) : Solved (.literal a) d []
  | list {ps : List Pattern} {rest : Option String} {ds : List Datum} {σ : Assignment}
      (hcovers : covers rest ps.length ds.length = true) (h : solveAll ps ds = some σ) :
      Solved (.list ps rest) (.list ds) (σ ++ takeRest rest (.list (ds.drop ps.length)))
  | tuple {ps : List Pattern} {rest : Option String} {ds : List Datum} {σ : Assignment}
      (hcovers : covers rest ps.length ds.length = true) (h : solveAll ps ds = some σ) :
      Solved (.tuple ps rest) (.tuple ds) (σ ++ takeRest rest (.tuple (ds.drop ps.length)))
  | dict {es : List (Scalar × Pattern)} {rest : Option String} {entries : List (Datum × Datum)}
      {σ : Assignment} (hcovers : covers rest es.length entries.length = true)
      (h : solveEntries es entries = some σ) :
      Solved (.dict es rest) (.dict entries)
        (σ ++ takeRest rest (.dict (Datum.without Prod.fst (keys es) entries)))
  | set {as : List Scalar} {rest : Option String} {ds : List Datum}
      (hcovers : covers rest (Scalar.distinct as).length ds.length = true)
      (h : ∀ a ∈ Scalar.distinct as, ∃ d ∈ ds, (Datum.atom a).sameKey d = true) :
      Solved (.set as rest) (.set ds)
        (takeRest rest (.set (Datum.without id (Scalar.distinct as) ds)))

theorem solve?_eq_some_iff : P.solve? d = some σ ↔ Solved P d σ := by
  constructor
  · intro h
    rw [solve?.eq_def] at h
    split at h
    · cases h
      exact .sym _ _
    · split at h
      · next hequal =>
        cases h
        exact .literal hequal
      · cases h
    · split at h
      · next hcovers =>
        obtain ⟨σ', h', rfl⟩ := Option.map_eq_some_iff.mp h
        exact .list hcovers h'
      · cases h
    · split at h
      · next hcovers =>
        obtain ⟨σ', h', rfl⟩ := Option.map_eq_some_iff.mp h
        exact .tuple hcovers h'
      · cases h
    · split at h
      · next hcovers =>
        obtain ⟨σ', h', rfl⟩ := Option.map_eq_some_iff.mp h
        exact .dict hcovers h'
      · cases h
    · split at h
      · next hcond =>
        cases h
        simp only [Bool.and_eq_true, List.all_eq_true, List.any_eq_true] at hcond
        exact .set hcond.1 hcond.2
      · cases h
    · cases h
  · intro h
    cases h with
    | sym => rw [solve?]
    | literal hequal => rw [solve?, if_pos hequal]
    | list hcovers h => rw [solve?, if_pos hcovers, h, Option.map_some]
    | tuple hcovers h => rw [solve?, if_pos hcovers, h, Option.map_some]
    | dict hcovers h => rw [solve?, if_pos hcovers, h, Option.map_some]
    | set hcovers h =>
      rw [solve?, if_pos]
      simp only [Bool.and_eq_true, List.all_eq_true, List.any_eq_true]
      exact ⟨hcovers, h⟩

theorem covers_iff {rest : Option String} {n size : Nat} :
    covers rest n size = true ↔ (rest = none → n = size) := by
  cases rest <;> simp [covers]

def Agrees (τ : String → Datum) (σ : Assignment) : Prop := ∀ e ∈ σ, τ e.1 = e.2

theorem agrees_append {σ σ' : Assignment} : Agrees τ (σ ++ σ') ↔ Agrees τ σ ∧ Agrees τ σ' :=
  List.forall_mem_append

theorem spreads_of_agrees {α : Type} {collection : List α → Datum} {left : List α} {rest : Option String}
    (h : Agrees τ (takeRest rest (collection left))) (hnone : rest = none → left = []) :
    Spreads τ collection left rest := by
  cases rest with
  | none => exact hnone rfl
  | some x => exact fun hx => h (x, collection left) (mem_takeRest.mpr ⟨x, rfl, hx, rfl⟩)

/-- The assignment turns the pattern into something equal to the datum. -/
def HasInstance (τ : String → Datum) (P : Pattern) (d : Datum) : Prop :=
  ∃ d', Instance τ P d' ∧ d'.equal d = true

theorem solveAll_sound {ps : List Pattern} {ds : List Datum} (hds : ∀ d ∈ ds, d.Regular)
    (ih : ∀ p ∈ ps, ∀ d σ, d.Regular → p.solve? d = some σ → Agrees τ σ → HasInstance τ p d)
    (h : solveAll ps ds = some σ) (hσ : Agrees τ σ) :
    ∃ ds', List.Forall₂ (Instance τ) ps ds' ∧
      List.Forall₂ (fun d' d => d'.equal d = true) (ds' ++ ds.drop ps.length) ds := by
  induction ps generalizing ds σ with
  | nil =>
    exact ⟨[], .nil, List.forall₂_same.mpr fun d hd => (hds d hd).equal_self⟩
  | cons p ps ihps =>
    obtain ⟨d, ds, σ₁, σ₂, rfl, h₁, h₂, rfl⟩ := solveAll_cons h
    obtain ⟨hσ₁, hσ₂⟩ := agrees_append.mp hσ
    obtain ⟨ihp, ihrest⟩ := List.forall_mem_cons.mp ih
    obtain ⟨hd, hds⟩ := List.forall_mem_cons.mp hds
    obtain ⟨d', hinstance, hequal⟩ := ihp d σ₁ hd h₁ hσ₁
    obtain ⟨ds', hinstances, hequals⟩ := ihps hds ihrest h₂ hσ₂
    exact ⟨d' :: ds', .cons hinstance hinstances, .cons hequal hequals⟩

theorem solveEntries_sound {es : List (Scalar × Pattern)} {entries : List (Datum × Datum)}
    (hentries : ∀ e ∈ entries, e.2.Regular)
    (ih : ∀ e ∈ es, ∀ d σ, d.Regular → e.2.solve? d = some σ → Agrees τ σ → HasInstance τ e.2 d)
    (h : solveEntries es entries = some σ) (hσ : Agrees τ σ) :
    ∃ ds, List.Forall₂ (fun e => Instance τ e.2) es ds ∧
      ∀ e ∈ (es.map fun e => e.1.datum).zip ds,
        ∃ e', entries.find? (fun e' => e.1.sameKey e'.1) = some e' ∧ e.2.equal e'.2 = true := by
  induction es generalizing σ with
  | nil => exact ⟨[], .nil, nofun⟩
  | cons e es ihes =>
    obtain ⟨d, σ₁, σ₂, hfind, h₁, h₂, rfl⟩ := solveEntries_cons h
    obtain ⟨hσ₁, hσ₂⟩ := agrees_append.mp hσ
    obtain ⟨ihe, ihrest⟩ := List.forall_mem_cons.mp ih
    obtain ⟨e', hentry, rfl⟩ := Option.map_eq_some_iff.mp hfind
    obtain ⟨d', hinstance, hequal⟩ :=
      ihe e'.2 σ₁ (hentries e' (List.mem_of_find?_eq_some hentry)) h₁ hσ₁
    obtain ⟨ds, hinstances, hfound⟩ := ihes ihrest h₂ hσ₂
    refine ⟨d' :: ds, .cons hinstance hinstances, ?_⟩
    exact List.forall_mem_cons.mpr ⟨⟨e', hentry, hequal⟩, hfound⟩

theorem pairwise_keys {es : List (Scalar × Pattern)}
    (h : es.Pairwise fun e e' => e.1.atom.equal e'.1.atom = false) :
    (keys es).Pairwise fun k l => (Datum.atom k).sameKey (.atom l) = false := by
  rw [keys, List.pairwise_map]
  refine h.imp fun hne => ?_
  rw [Datum.sameKey, Datum.equal, hne, Bool.false_and]

theorem exists_find?_of_solveEntries {es : List (Scalar × Pattern)} {entries : List (Datum × Datum)}
    (h : solveEntries es entries = some σ) :
    ∀ e ∈ es, ∃ e', entries.find? (fun e' => e.1.datum.sameKey e'.1) = some e' := by
  induction es generalizing σ with
  | nil => nofun
  | cons e es ih =>
    obtain ⟨d, σ₁, σ₂, hfind, h₁, h₂, rfl⟩ := solveEntries_cons h
    obtain ⟨e', hentry, -⟩ := Option.map_eq_some_iff.mp hfind
    exact List.forall_mem_cons.mpr ⟨⟨e', hentry⟩, ih h₂⟩

theorem length_without_keys {es : List (Scalar × Pattern)} {entries : List (Datum × Datum)}
    (hkeys : es.Pairwise fun e e' => e.1.atom.equal e'.1.atom = false)
    (h : solveEntries es entries = some σ) :
    es.length + (Datum.without Prod.fst (keys es) entries).length = entries.length := by
  have hfound : ∀ k ∈ keys es, ∃ e ∈ entries, (Datum.atom k).sameKey e.1 = true := by
    intro k hk
    obtain ⟨e, he, rfl⟩ := List.mem_map.mp hk
    obtain ⟨e', hfind⟩ := exists_find?_of_solveEntries h e he
    have hsame := List.find?_some hfind
    exact ⟨e', List.mem_of_find?_eq_some hfind, hsame⟩
  have hlength := Datum.length_without Prod.fst (pairwise_keys hkeys) hfound
  rwa [keys, List.length_map] at hlength

theorem solve_sound (hP : P.Proper) (hd : d.Regular) (h : P.solve? d = some σ) (hσ : Agrees τ σ) :
    HasInstance τ P d := by
  induction hP generalizing d σ with
  | sym x =>
    cases solve?_eq_some_iff.mp h
    by_cases hx : x = "_"
    · subst hx
      exact ⟨d, .wildcard d, hd.equal_self⟩
    · refine ⟨τ x, .name hx, ?_⟩
      rw [hσ (x, d) (mem_take.mpr ⟨hx, rfl⟩)]
      exact hd.equal_self
  | literal a =>
    cases solve?_eq_some_iff.mp h with
    | literal hequal =>
      refine ⟨a.datum, .literal a, ?_⟩
      cases Datum.equal_iff.mp hequal with
      | atom hatom =>
        rw [Atom.equal_comm] at hatom
        exact Datum.equal_iff.mpr (.atom hatom)
  | list _ ih =>
    cases solve?_eq_some_iff.mp h with
    | list hcovers hall =>
      obtain ⟨hσ, hrest⟩ := agrees_append.mp hσ
      obtain ⟨ds', hinstances, hequals⟩ := solveAll_sound (fun d => hd.of_mem_list)
        (fun p hp d σ => ih p hp) hall hσ
      obtain ⟨hlength, hzip⟩ := List.forall₂_iff_zip.mp hinstances
      refine ⟨_, .list hlength (fun e he => hzip he) (spreads_of_agrees hrest fun hnone => ?_),
        Datum.equal_iff.mpr (.list hequals)⟩
      rw [covers_iff.mp hcovers hnone, List.drop_length]
  | tuple _ ih =>
    cases solve?_eq_some_iff.mp h with
    | tuple hcovers hall =>
      obtain ⟨hσ, hrest⟩ := agrees_append.mp hσ
      obtain ⟨ds', hinstances, hequals⟩ := solveAll_sound (fun d => hd.of_mem_tuple)
        (fun p hp d σ => ih p hp) hall hσ
      obtain ⟨hlength, hzip⟩ := List.forall₂_iff_zip.mp hinstances
      refine ⟨_, .tuple hlength (fun e he => hzip he) (spreads_of_agrees hrest fun hnone => ?_),
        Datum.equal_iff.mpr (.tuple hequals)⟩
      rw [covers_iff.mp hcovers hnone, List.drop_length]
  | @dict es rest hkeys _ ih =>
    cases solve?_eq_some_iff.mp h with
    | @dict _ _ entries _ hcovers hentries =>
      obtain ⟨hσ, hrest⟩ := agrees_append.mp hσ
      obtain ⟨ds, hinstances, hfound⟩ := solveEntries_sound (fun e he => hd.value he)
        (fun e he d σ => ih e he) hentries hσ
      obtain ⟨hlength, hzip⟩ := List.forall₂_iff_zip.mp hinstances
      have hcount := length_without_keys hkeys hentries
      refine ⟨_, .dict hlength (fun e he => hzip he) (spreads_of_agrees hrest fun hnone => ?_) ?_, ?_⟩
      · have hall := covers_iff.mp hcovers hnone
        exact List.length_eq_zero_iff.mp (by omega)
      · cases hd.apart with
        | dict hapart _ =>
          exact fun e he l hl => Datum.not_sameKey_of_mem_without Prod.fst
            (hapart.imp Datum.not_sameKey_of_not_equal) e.1.atom
            (List.mem_map.mpr ⟨e, he, rfl⟩) l hl
      · refine Datum.equal_iff.mpr (.dict ?_ (List.forall_mem_append.mpr ⟨hfound, fun e he => ?_⟩))
        · rw [List.length_append, List.length_zip, List.length_map]
          omega
        · have hmem := (Datum.without_sublist _ _ _).subset he
          exact ⟨e, hd.find?_entry hmem (hd.key hmem).equal_self, (hd.value hmem).equal_self⟩
  | set as rest =>
    cases solve?_eq_some_iff.mp h with
    | @set _ _ ds hcovers hfound =>
      have hcount := Datum.length_without id (Scalar.pairwise_distinct as) hfound
      refine ⟨_, .set (spreads_of_agrees hσ fun hnone => ?_) ?_, ?_⟩
      · have hall := covers_iff.mp hcovers hnone
        exact List.length_eq_zero_iff.mp (by omega)
      · cases hd.apart with
        | set hapart =>
          exact Datum.not_sameKey_of_mem_without id (hapart.imp Datum.not_sameKey_of_not_equal)
      · refine Datum.equal_iff.mpr (.set ?_ (List.forall_mem_append.mpr ⟨?_, fun l hl => ?_⟩))
        · rw [List.length_append, List.length_map]
          exact hcount
        · exact List.forall_mem_map.mpr hfound
        · have hmem := (Datum.without_sublist _ _ _).subset hl
          exact ⟨l, hmem, Datum.sameKey_iff.mpr ⟨(hd.of_mem_set hmem).equal_self, rfl⟩⟩

/-- What was taken is equal to what the assignment says. -/
def Suits (τ : String → Datum) (σ : Assignment) : Prop := ∀ e ∈ σ, (τ e.1).equal e.2 = true

theorem suits_append {σ σ' : Assignment} (h : Suits τ σ) (h' : Suits τ σ') : Suits τ (σ ++ σ') :=
  List.forall_mem_append.mpr ⟨h, h'⟩

theorem suits_takeRest {α : Type} {collection : List α → Datum} {left : List α} {rest : Option String}
    (hrest : Spreads τ collection left rest) (h : (collection left).equal d = true) :
    Suits τ (takeRest rest d) := by
  intro e he
  obtain ⟨x, hx, hne, rfl⟩ := mem_takeRest.mp he
  obtain rfl := Option.mem_def.mp hx
  rw [hrest hne]
  exact h

theorem covers_of_spreads {α : Type} {collection : List α → Datum} {left : List α} {rest : Option String}
    {n size : Nat} (hrest : Spreads τ collection left rest) (h : n + left.length = size) :
    covers rest n size = true := by
  refine covers_iff.mpr fun hnone => ?_
  subst hnone
  rw [show left = [] from hrest] at h
  exact h

theorem solveAll_complete {ps : List Pattern} {ds' left ds : List Datum}
    (ih : ∀ p ∈ ps, ∀ d' d, Instance τ p d' → d'.equal d = true → ∃ σ, p.solve? d = some σ ∧ Suits τ σ)
    (hinstances : List.Forall₂ (Instance τ) ps ds')
    (hequals : List.Forall₂ (fun d' d => d'.equal d = true) (ds' ++ left) ds) :
    (∃ σ, solveAll ps ds = some σ ∧ Suits τ σ) ∧
      List.Forall₂ (fun d' d => d'.equal d = true) left (ds.drop ps.length) := by
  induction hinstances generalizing ds with
  | nil => exact ⟨⟨[], by rw [solveAll], nofun⟩, hequals⟩
  | cons hinstance _ ihps =>
    cases hequals with
    | cons hequal hequals =>
      obtain ⟨ihp, ihrest⟩ := List.forall_mem_cons.mp ih
      obtain ⟨σ₁, h₁, hσ₁⟩ := ihp _ _ hinstance hequal
      obtain ⟨⟨σ₂, h₂, hσ₂⟩, hleft⟩ := ihps ihrest hequals
      refine ⟨⟨σ₁ ++ σ₂, ?_, suits_append hσ₁ hσ₂⟩, hleft⟩
      rw [solveAll, h₁, h₂]
      rfl

theorem solveEntries_complete {es : List (Scalar × Pattern)} {ds : List Datum}
    {entries : List (Datum × Datum)}
    (ih : ∀ e ∈ es, ∀ d' d, Instance τ e.2 d' → d'.equal d = true →
      ∃ σ, e.2.solve? d = some σ ∧ Suits τ σ)
    (hinstances : List.Forall₂ (fun e => Instance τ e.2) es ds)
    (hfound : ∀ e ∈ (es.map fun e => e.1.datum).zip ds,
      ∃ e', entries.find? (fun e' => e.1.sameKey e'.1) = some e' ∧ e.2.equal e'.2 = true) :
    ∃ σ, solveEntries es entries = some σ ∧ Suits τ σ := by
  induction hinstances with
  | nil => exact ⟨[], by rw [solveEntries], nofun⟩
  | @cons e d es ds hinstance _ ihes =>
    obtain ⟨⟨e', hentry, hequal⟩, hfound⟩ := List.forall_mem_cons.mp hfound
    obtain ⟨ihe, ihrest⟩ := List.forall_mem_cons.mp ih
    obtain ⟨σ₁, h₁, hσ₁⟩ := ihe _ _ hinstance hequal
    obtain ⟨σ₂, h₂, hσ₂⟩ := ihes ihrest hfound
    have hfind : Keyed.find? e.1.datum.sameKey entries = some e'.2 := by
      rw [Keyed.find?, hentry, Option.map_some]
    refine ⟨σ₁ ++ σ₂, ?_, suits_append hσ₁ hσ₂⟩
    rw [solveEntries, hfind, Option.bind_eq_bind, Option.bind_some, h₁, h₂]
    rfl

theorem solve_complete (hP : P.Proper) {d' : Datum} (hinstance : Instance τ P d')
    (hequal : d'.equal d = true) : ∃ σ, P.solve? d = some σ ∧ Suits τ σ := by
  induction hP generalizing d d' with
  | sym x =>
    refine ⟨take x d, by rw [solve?], fun e he => ?_⟩
    obtain ⟨hx, rfl⟩ := mem_take.mp he
    cases hinstance with
    | name => exact hequal
    | wildcard => exact absurd rfl hx
  | literal a =>
    refine ⟨[], solve?_eq_some_iff.mpr (.literal ?_), nofun⟩
    cases hinstance
    cases Datum.equal_iff.mp hequal with
    | atom hatom =>
      rw [Atom.equal_comm] at hatom
      exact Datum.equal_iff.mpr (.atom hatom)
  | list _ ih =>
    cases hinstance with
    | list hlength hzip hrest =>
      cases Datum.equal_iff.mp hequal with
      | list hparts =>
        have hcount := hparts.length_eq
        rw [List.length_append, ← hlength] at hcount
        obtain ⟨⟨σ, hsolve, hσ⟩, hleft⟩ := solveAll_complete (fun p hp d' d => ih p hp)
          (List.forall₂_iff_zip.mpr ⟨hlength, fun {p d} => hzip (p, d)⟩) hparts
        exact ⟨_, solve?_eq_some_iff.mpr (.list (covers_of_spreads hrest hcount) hsolve),
          suits_append hσ (suits_takeRest hrest (Datum.equal_iff.mpr (.list hleft)))⟩
  | tuple _ ih =>
    cases hinstance with
    | tuple hlength hzip hrest =>
      cases Datum.equal_iff.mp hequal with
      | tuple hparts =>
        have hcount := hparts.length_eq
        rw [List.length_append, ← hlength] at hcount
        obtain ⟨⟨σ, hsolve, hσ⟩, hleft⟩ := solveAll_complete (fun p hp d' d => ih p hp)
          (List.forall₂_iff_zip.mpr ⟨hlength, fun {p d} => hzip (p, d)⟩) hparts
        exact ⟨_, solve?_eq_some_iff.mpr (.tuple (covers_of_spreads hrest hcount) hsolve),
          suits_append hσ (suits_takeRest hrest (Datum.equal_iff.mpr (.tuple hleft)))⟩
  | @dict es rest hkeys _ ih =>
    cases hinstance with
    | @dict _ ds left _ hlength hzip hrest hleft =>
      cases Datum.equal_iff.mp hequal with
      | @dict _ entries hcount hfound =>
        obtain ⟨hnamed, hothers⟩ := List.forall_mem_append.mp hfound
        rw [List.length_append, List.length_zip, List.length_map, ← hlength, Nat.min_self] at hcount
        obtain ⟨σ, hsolve, hσ⟩ := solveEntries_complete (fun e he d' d => ih e he)
          (List.forall₂_iff_zip.mpr ⟨hlength, fun {e d} => hzip (e, d)⟩) hnamed
        have hkept := length_without_keys hkeys hsolve
        refine ⟨_, solve?_eq_some_iff.mpr (.dict (covers_of_spreads hrest hcount) hsolve),
          suits_append hσ (suits_takeRest hrest ?_)⟩
        refine Datum.equal_iff.mpr (.dict (by omega) fun l hl => ?_)
        obtain ⟨e', hfind, hvalue⟩ := hothers l hl
        refine ⟨e', ?_, hvalue⟩
        rw [← hfind]
        refine Datum.find?_without _ _ fun k hk => ?_
        obtain ⟨e, he, rfl⟩ := List.mem_map.mp hk
        exact hleft e he l hl
  | set as rest =>
    cases hinstance with
    | @set _ left _ hrest hleft =>
      cases Datum.equal_iff.mp hequal with
      | @set _ ds hcount hfound =>
        obtain ⟨hnamed, hothers⟩ := List.forall_mem_append.mp hfound
        have hnamed := List.forall_mem_map.mp hnamed
        rw [List.length_append, List.length_map] at hcount
        have hkept := Datum.length_without id (Scalar.pairwise_distinct as) hnamed
        refine ⟨_, solve?_eq_some_iff.mpr (.set (covers_of_spreads hrest hcount) hnamed),
          suits_takeRest hrest (Datum.equal_iff.mpr (.set (by omega) fun l hl => ?_))⟩
        obtain ⟨y, hy, hly⟩ := hothers l hl
        have hfind := Datum.find?_without id ds fun k hk => hleft k hk l hl
        have hsome : (ds.find? fun x => l.sameKey (id x)).isSome := List.find?_isSome.mpr ⟨y, hy, hly⟩
        rw [← hfind, List.find?_isSome] at hsome
        exact hsome

theorem map_fst_take (x : String) (d : Datum) : (take x d).map Prod.fst = bound x := by
  unfold take bound
  split <;> rfl

theorem map_fst_takeRest (rest : Option String) (d : Datum) :
    (takeRest rest d).map Prod.fst = rest.toList.flatMap bound := by
  simp only [takeRest, List.map_flatMap, map_fst_take]

theorem map_fst_of_solveAll {ps : List Pattern} {ds : List Datum}
    (ih : ∀ p ∈ ps, ∀ d σ, p.solve? d = some σ → σ.map Prod.fst = p.names)
    (h : solveAll ps ds = some σ) : σ.map Prod.fst = namesAll ps := by
  induction ps generalizing ds σ with
  | nil =>
    rw [solveAll] at h
    cases h
    rw [namesAll, List.map_nil]
  | cons p ps ihps =>
    obtain ⟨d, ds, σ₁, σ₂, rfl, h₁, h₂, rfl⟩ := solveAll_cons h
    obtain ⟨ihp, ihrest⟩ := List.forall_mem_cons.mp ih
    rw [List.map_append, ihp d σ₁ h₁, ihps ihrest h₂, namesAll]

theorem map_fst_of_solveEntries {es : List (Scalar × Pattern)} {entries : List (Datum × Datum)}
    (ih : ∀ e ∈ es, ∀ d σ, e.2.solve? d = some σ → σ.map Prod.fst = e.2.names)
    (h : solveEntries es entries = some σ) : σ.map Prod.fst = entryNames es := by
  induction es generalizing σ with
  | nil =>
    rw [solveEntries] at h
    cases h
    rw [entryNames, List.map_nil]
  | cons e es ihes =>
    obtain ⟨d, σ₁, σ₂, hfind, h₁, h₂, rfl⟩ := solveEntries_cons h
    obtain ⟨ihe, ihrest⟩ := List.forall_mem_cons.mp ih
    rw [List.map_append, ihe d σ₁ h₁, ihes ihrest h₂, entryNames]

theorem map_fst_of_solve (hP : P.Proper) (h : P.solve? d = some σ) : σ.map Prod.fst = P.names := by
  induction hP generalizing d σ with
  | sym x =>
    cases solve?_eq_some_iff.mp h
    rw [map_fst_take, names]
  | literal a =>
    cases solve?_eq_some_iff.mp h
    rw [names, List.map_nil]
  | list _ ih =>
    cases solve?_eq_some_iff.mp h with
    | list _ hall =>
      rw [List.map_append, map_fst_of_solveAll (fun p hp d σ => ih p hp) hall, map_fst_takeRest, names]
  | tuple _ ih =>
    cases solve?_eq_some_iff.mp h with
    | tuple _ hall =>
      rw [List.map_append, map_fst_of_solveAll (fun p hp d σ => ih p hp) hall, map_fst_takeRest, names]
  | dict _ _ ih =>
    cases solve?_eq_some_iff.mp h with
    | dict _ hentries =>
      rw [List.map_append, map_fst_of_solveEntries (fun e he d σ => ih e he) hentries,
        map_fst_takeRest, names]
  | set as rest =>
    cases solve?_eq_some_iff.mp h
    rw [map_fst_takeRest, names]

theorem takenFrom_takeRest {rest : Option String} {x : Datum} (h : d.TakenFrom x) :
    ∀ e ∈ takeRest rest x, d.TakenFrom e.2 := by
  intro e he
  obtain ⟨_, -, -, rfl⟩ := mem_takeRest.mp he
  exact h

theorem takenFrom_of_solveAll {ps : List Pattern} {ds : List Datum}
    (ih : ∀ p ∈ ps, ∀ d σ, p.solve? d = some σ → ∀ e ∈ σ, d.TakenFrom e.2)
    (h : solveAll ps ds = some σ) : ∀ e ∈ σ, ∃ d ∈ ds, d.TakenFrom e.2 := by
  induction ps generalizing ds σ with
  | nil =>
    rw [solveAll] at h
    cases h
    nofun
  | cons p ps ihps =>
    obtain ⟨d, ds, σ₁, σ₂, rfl, h₁, h₂, rfl⟩ := solveAll_cons h
    obtain ⟨ihp, ihrest⟩ := List.forall_mem_cons.mp ih
    refine List.forall_mem_append.mpr ⟨fun e he => ⟨d, List.mem_cons_self, ihp d σ₁ h₁ e he⟩, ?_⟩
    intro e he
    obtain ⟨d', hd', htaken⟩ := ihps ihrest h₂ e he
    exact ⟨d', List.mem_cons_of_mem d hd', htaken⟩

theorem takenFrom_of_solveEntries {es : List (Scalar × Pattern)} {entries : List (Datum × Datum)}
    (ih : ∀ e ∈ es, ∀ d σ, e.2.solve? d = some σ → ∀ e ∈ σ, d.TakenFrom e.2)
    (h : solveEntries es entries = some σ) : ∀ e ∈ σ, ∃ e' ∈ entries, e'.2.TakenFrom e.2 := by
  induction es generalizing σ with
  | nil =>
    rw [solveEntries] at h
    cases h
    nofun
  | cons e es ihes =>
    obtain ⟨d, σ₁, σ₂, hfind, h₁, h₂, rfl⟩ := solveEntries_cons h
    obtain ⟨ihe, ihrest⟩ := List.forall_mem_cons.mp ih
    obtain ⟨e', hentry, rfl⟩ := Option.map_eq_some_iff.mp hfind
    refine List.forall_mem_append.mpr ⟨fun x hx => ?_, ihes ihrest h₂⟩
    exact ⟨e', List.mem_of_find?_eq_some hentry, ihe e'.2 σ₁ h₁ x hx⟩

theorem takenFrom_of_solve (hP : P.Proper) (h : P.solve? d = some σ) : ∀ e ∈ σ, d.TakenFrom e.2 := by
  induction hP generalizing d σ with
  | sym x =>
    cases solve?_eq_some_iff.mp h
    intro e he
    obtain ⟨-, rfl⟩ := mem_take.mp he
    exact .part .self
  | literal a =>
    cases solve?_eq_some_iff.mp h
    nofun
  | list _ ih =>
    cases solve?_eq_some_iff.mp h with
    | list _ hall =>
      refine List.forall_mem_append.mpr
        ⟨fun e he => ?_, takenFrom_takeRest (.list .self (List.drop_suffix _ _))⟩
      obtain ⟨d, hd, htaken⟩ := takenFrom_of_solveAll (fun p hp d σ => ih p hp) hall e he
      exact htaken.mono fun p hp => .list hd hp
  | tuple _ ih =>
    cases solve?_eq_some_iff.mp h with
    | tuple _ hall =>
      refine List.forall_mem_append.mpr
        ⟨fun e he => ?_, takenFrom_takeRest (.tuple .self (List.drop_suffix _ _))⟩
      obtain ⟨d, hd, htaken⟩ := takenFrom_of_solveAll (fun p hp d σ => ih p hp) hall e he
      exact htaken.mono fun p hp => .tuple hd hp
  | dict _ _ ih =>
    cases solve?_eq_some_iff.mp h with
    | dict _ hentries =>
      refine List.forall_mem_append.mpr
        ⟨fun e he => ?_, takenFrom_takeRest (.dict .self (Datum.without_sublist _ _ _))⟩
      obtain ⟨e', he', htaken⟩ := takenFrom_of_solveEntries (fun e he d σ => ih e he) hentries e he
      exact htaken.mono fun p hp => .value he' hp
  | set as rest =>
    cases solve?_eq_some_iff.mp h
    exact takenFrom_takeRest (.set .self (Datum.without_sublist _ _ _))

end Pattern

end EventTally
