import EventTally.Proofs.Eval.Parts
import EventTally.Proofs.Scope.Tree

/-! # Destructuring copies

Matching removes keys and takes sequences apart, but never in the value: what a spread takes is a new
collection. So a match changes nothing that was there, and what is put into or deleted from a collection
that a spread bound shows neither in the value nor in what other spreads bound, and the other way round
(`destructuring_copies`). This needs that the expressions in the pattern do nothing but look up names and
make values.
-/

namespace EventTally

/-- A name and the value it was bound to, by a spread if the flag is set. -/
structure Binding where
  spread : Bool
  name : String
  value : Value

def Binding.entry (b : Binding) : String × Value := (b.name, b.value)

namespace Heap

variable {h h' h₀ : Heap} {s : ScopeRef} {k : Bool} {u : Value} {ys : List Binding}

/-- From `h₀` on nothing happened but that new objects were made and names bound in the scope, to
different new collections where a spread was bound. -/
structure Destructured (h₀ : Heap) (s : ScopeRef) (ys : List Binding) (h : Heap) : Prop where
  grown : h₀.Grown h
  layers : h.layers = (h₀.bindAll s (ys.map Binding.entry)).layers
  new : ∀ y ∈ ys, y.spread = true → NewSince h₀ h y.value
  apart : ys.Pairwise fun y z => y.spread = true → z.spread = true →
    (∀ vs, z.value ≠ .tuple vs) → y.value ≠ z.value

/-- The value is a new collection that was not bound yet. -/
structure Unbound (h₀ : Heap) (ys : List Binding) (h : Heap) (u : Value) : Prop where
  new : NewSince h₀ h u
  apart : (∀ vs, u ≠ .tuple vs) → ∀ y ∈ ys, y.spread = true → y.value ≠ u

namespace Destructured

theorem refl (h : Heap) (s : ScopeRef) : Destructured h s [] h :=
  ⟨.refl h, rfl, nofun, .nil⟩

variable (hd : Destructured h₀ s ys h)
include hd

theorem extend (hext : h.Extends h') (hlayers : h'.layers = h.layers) : Destructured h₀ s ys h' :=
  ⟨hd.grown.trans hext.grown, hlayers.trans hd.layers,
    fun y hy hspread => (hd.new y hy hspread).grow hext.grown, hd.apart⟩

theorem unbound (hu : NewSince h h' u) : Unbound h₀ ys h' u :=
  ⟨hu.since hd.grown, fun hne y hy hspread => (hd.new y hy hspread).ne_of_new hu hne⟩

theorem bind (x : String) (hu : k = true → Unbound h₀ ys h u) :
    Destructured h₀ s (ys ++ [⟨k, x, u⟩]) (h.bind s x u) := by
  have hgrown := Grown.bind h s x u
  refine ⟨hd.grown.trans hgrown, ?_, ?_, ?_⟩
  · rw [List.map_append, bindAll, List.foldl_append]
    change (h.bind s x u).layers = ((h₀.bindAll s (ys.map Binding.entry)).bind s x u).layers
    rw [Heap.bind, Heap.bind, hd.layers]
  · intro y hy hspread
    rcases List.mem_append.mp hy with hy | hy
    · exact (hd.new y hy hspread).grow hgrown
    · obtain rfl := List.mem_singleton.mp hy
      exact (hu hspread).new.grow hgrown
  · refine List.pairwise_append.mpr ⟨hd.apart, List.pairwise_singleton _ _, ?_⟩
    intro y hy z hz hspread hspread' hne
    obtain rfl := List.mem_singleton.mp hz
    exact (hu hspread').apart hne y hy hspread

end Destructured

theorem lookup_bindAll_of_ne {name : String} (hs : s.id < h.layers.size) {es : List (String × Value)}
    (hne : ∀ e ∈ es, e.1 ≠ name) : (h.bindAll s es).lookup s name = h.lookup s name := by
  induction es generalizing h with
  | nil => rfl
  | cons e es ih =>
    obtain ⟨hfirst, hrest⟩ := List.forall_mem_cons.mp hne
    have hs' : s.id < (h.bind s e.1 e.2).layers.size := by
      simpa [Heap.bind] using hs
    refine (ih hs' hrest).trans ?_
    by_contra hlookup
    exact hfirst (sees_of_lookup_bind hs hlookup).1.symm

end Heap

namespace EvalM

open Heap (Destructured Unbound)

variable {h : Heap} {s : ScopeRef} {bs : List Builtin} {N : Bool → String → Prop} {k k' : Bool}
  {c p q : Code} {cs : List Code} {n : Nat} {w : World}

/-- What a match leads to: names were bound that the pattern allows. -/
def Matching (h : Heap) (s : ScopeRef) (N : Bool → String → Prop) (w : World) : Prop :=
  ∃ ys, Destructured h s ys w.heap ∧ ∀ y ∈ ys, N y.spread y.name

/-- The expressions in the pattern are harmless, and it binds no other names than these. -/
structure Gentle (h : Heap) (bs : List Builtin) (N : Bool → String → Prop) (k : Bool) (p : Code) :
    Prop where
  code : h.HasCode p
  harmless : ∀ k' q e, h.Subpattern k p k' q → h.Evaluates q e → h.Harmless bs e
  binds : ∀ k' q x, h.Subpattern k p k' q → h.symbol? q = some x → x ≠ "_" → N k' x

theorem shelter_matching (hclosed : h.Closed)
    (hvisible : ∀ b ∈ bs, h.lookup s b.name = some (.builtin b))
    (hfree : ∀ b ∈ bs, ∀ k, ¬ N k b.name) : Shelter h bs s (Matching h s N) where
  closed := hclosed
  grown := fun ⟨_, hd, _⟩ => hd.grown
  visible := by
    rintro w ⟨ys, hd, hN⟩ b hb
    have hs := Heap.lt_of_lookup (hvisible b hb)
    have hlayer (t : ScopeRef) : w.heap.layer t = (h.bindAll s (ys.map Binding.entry)).layer t := by
      rw [Heap.layer, hd.layers, Heap.layer]
    have hne : ∀ e ∈ ys.map Binding.entry, e.1 ≠ b.name := by
      intro e he heq
      obtain ⟨y, hy, rfl⟩ := List.mem_map.mp he
      exact hfree b hb y.spread (heq ▸ hN y hy)
    rw [Heap.lookup_congr fun t _ => hlayer t, Heap.lookup_bindAll_of_ne hs hne]
    exact hvisible b hb
  add := by
    rintro w h' ⟨ys, hd, hN⟩ hext hlayers
    exact ⟨ys, hd.extend hext hlayers, hN⟩

theorem Gentle.inner (hclosed : h.Closed) (hp : Gentle h bs N k p) (hinner : h.Inner p k' q) :
    Gentle h bs N k' q := by
  have hcode : h.HasCode q := by
    cases hinner with
    | element _ hc hmem => exact hp.code.of_tagged hclosed hc q hmem
    | value hc he => exact hp.code.of_tagged hclosed hc _ (Heap.mem_of_pairs he).2
    | chunk hc hmem => exact hp.code.of_tagged hclosed hc q hmem
  exact ⟨hcode, fun k'' p' e hsub => hp.harmless k'' p' e (.inner hinner hsub),
    fun k'' p' x hsub => hp.binds k'' p' x (.inner hinner hsub)⟩

theorem Gentle.evaluates (hp : Gentle h bs N k p) (he : h.Evaluates p c) : h.Harmless bs c :=
  hp.harmless k p c (.self k p) he

section

variable {I : World → Prop} (hI : Shelter h bs s I)
include hI

theorem Gentle.parts (hp : Gentle h bs N k p) {b : Bracket} (hc : h.Tagged b.tag p cs)
    (hbind : ∀ q place, Gentle h bs N false q → Keeps I Anything Anything ((recursor n).bind q place s)) :
    Parts I h (recursor n) s b cs := by
  have hcodes : ∀ c ∈ cs, h.HasCode c := hp.code.of_tagged hI.closed hc
  refine ⟨hcodes, ?elements, ?keys, ?values, ?members⟩
  case elements => exact fun hb c hmem place => hbind c place (hp.inner hI.closed (.element hb hc hmem))
  case keys =>
    rintro rfl e he
    exact hI.eval (hcodes _ (Heap.mem_of_pairs he).1) (hp.evaluates (.key hc he))
  case values =>
    rintro rfl e he place
    have hvalue := hp.inner hI.closed (.value hc he)
    exact keeps_bind_resolved hI hvalue.code (fun place => hbind e.2 place hvalue) place
  case members =>
    rintro rfl e he
    exact hI.eval (hcodes e he) (hp.evaluates (.member hc he))

theorem Gentle.keeps_bindForm (hp : Gentle h bs N k p) (hsym : h.symbol? p = none)
    (hbind : ∀ q place, Gentle h bs N false q → Keeps I Anything Anything ((recursor n).bind q place s))
    (hspread : ∀ q make, Gentle h bs N true q → Makes make →
      Keeps I Anything Anything (make >>= fun u => (recursor n).bind q (.value u) s)) (v : Value) :
    Keeps I Anything Anything (bindForm (recursor n) s (h.resolved p) v) := by
  have hcode := hp.code.resolved hI.closed
  -- Where no literal starts the pattern is evaluated.
  have hliteral (hno : ∀ b : Bracket, (h.form? p).bind h.head? ≠ some b.tag ∧
      (h.form? p).bind h.head? ≠ some b.intoTag) :
      Keeps I Anything Anything (bindLiteral (recursor n) s (h.resolved p) v) :=
    keeps_bindLiteral hI hcode (hp.evaluates (.literal hsym
      (fun b _ hc => (hno b).1 hc.head?_eq) fun b _ hc => (hno b).2 hc.head?_eq)).resolved v
  refine keeps_read (hI.formOf? hcode) ?_
  rw [Heap.form?_resolved]
  cases hform : h.form? p with
  | none => exact hliteral fun b => by simp [hform]
  | some elems =>
    refine keeps_read (hI.headOf? (hp.code.of_form hI.closed hform)) ?_
    cases hname : h.head? elems with
    | none => exact hliteral fun b => by simp [hform, hname]
    | some name =>
      have htagged : h.Tagged name p (elems.drop 1) := by
        cases elems with
        | nil => cases hname
        | cons hd cs => exact ⟨hd, hform, hname⟩
      dsimp only
      split
      · next b htag =>
        obtain rfl : b.tag = name := by simpa using List.find?_some htag
        exact keeps_bindPlain hI (hp.parts hI htagged hbind) v
      · next b _ htag =>
        obtain rfl : b.intoTag = name := by simpa using List.find?_some htag
        refine keeps_bindSpread hI (fun c hc => ?_) v
        have hchunk := hp.inner hI.closed (.chunk htagged hc)
        exact ⟨hchunk.code, fun cs hcs => hchunk.parts hI hcs hbind, fun make => hspread c make hchunk⟩
      · next hplain hinto =>
        refine hliteral fun b => ?_
        rw [hform, Option.bind_some, hname]
        constructor
        · rintro ⟨⟩
          exact absurd hplain (by cases b <;> decide)
        · rintro ⟨⟩
          exact absurd hinto (by cases b <;> decide)

end

theorem within_anything {α : Type} (r : Except Fault α) : Within Anything Anything r := by
  cases r <;> trivial

theorem Gentle.matching_bind (hI : Shelter h bs s (Matching h s N)) (hp : Gentle h bs N k p)
    (hform : h.symbol? p = none → ∀ v, Keeps (Matching h s N) Anything Anything
      (bindForm (recursor n) s (h.resolved p) v)) {place : Place} {ys : List Binding}
    (hd : Destructured h s ys w.heap) (hN : ∀ y ∈ ys, N y.spread y.name)
    (hu : k = true → Unbound h ys w.heap (w.heap.read place)) :
    Matching h s N (((recursor (n + 1)).bind p place s).run w).2 := by
  have hw : Matching h s N w := ⟨ys, hd, hN⟩
  change Matching h s N ((bindStep (recursor n) p place s).run w).2
  rw [bindStep_run, hI.symbol? hp.code hw, hd.grown.resolved hp.code]
  cases hsym : h.symbol? p with
  | none => exact (hform hsym _ w hw).1
  | some x =>
    dsimp only
    split
    · exact hw
    · next hx =>
      refine ⟨ys ++ [⟨k, x, w.heap.read place⟩], hd.bind x hu, ?_⟩
      intro y hy
      rcases List.mem_append.mp hy with hy | hy
      · exact hN y hy
      · obtain rfl := List.mem_singleton.mp hy
        exact hp.binds k p x (.self k p) hsym hx

/-- Matching a pattern whose expressions are harmless makes new objects and binds names that the pattern
binds, each spread to a collection that is new. -/
theorem keeps_bind (hI : Shelter h bs s (Matching h s N)) (n : Nat) :
    (∀ p place, Gentle h bs N false p →
      Keeps (Matching h s N) Anything Anything ((recursor n).bind p place s)) ∧
    ∀ p make, Gentle h bs N true p → Makes make →
      Keeps (Matching h s N) Anything Anything (make >>= fun u => (recursor n).bind p (.value u) s) := by
  induction n with
  | zero =>
    refine ⟨fun _ _ _ => Keeps.throw trivial, fun p make _ hmake => ?_⟩
    exact (hmake.keeps hI).bind fun _ _ => Keeps.throw trivial
  | succ n ih =>
    have hform {k : Bool} {p : Code} (hp : Gentle h bs N k p) (hsym : h.symbol? p = none) (v : Value) :=
      hp.keeps_bindForm hI hsym ih.1 ih.2 v
    constructor
    · rintro p place hp w ⟨ys, hd, hN⟩
      exact ⟨hp.matching_bind hI (hform hp) hd hN nofun, within_anything _⟩
    · rintro p make hp hmake w ⟨ys, hd, hN⟩
      obtain ⟨u, h', hrun, hext, hlayers, hnew⟩ := hmake w
      rw [run_bind, hrun]
      have hd' : Destructured h s ys h' := hd.extend hext hlayers
      exact ⟨hp.matching_bind hI (hform hp) hd' hN fun _ => hd.unbound hnew, within_anything _⟩

/-- **Destructuring copies.** If the expressions in a pattern are literals, symbols and pins of symbols
and the pattern does not bind the builtins they call, then a match, whether it succeeds or fails, leaves
everything that is there unchanged. Every collection that a spread binds is new: putting and deleting
elements in it changes nothing that was there before the match and no element of what other spreads bound,
and putting and deleting elements in anything that was there does not change its elements. -/
theorem destructuring_copies {pattern : Code} {place : Place} (hclosed : w.heap.Closed)
    (hpattern : w.heap.HasCode pattern)
    (hexprs : ∀ e, w.heap.Embeds pattern e → w.heap.Harmless bs e)
    (hvisible : ∀ b ∈ bs, w.heap.lookup s b.name = some (.builtin b))
    (hfree : ∀ b ∈ bs, ∀ spread, ¬ w.heap.Binds pattern spread b.name) :
    let w' := (((recursor n).bind pattern place s).run w).2
    w.heap.Grown w'.heap ∧
    ∃ ys : List Binding,
      w'.heap.layers = (w.heap.bindAll s (ys.map Binding.entry)).layers ∧
      (∀ y ∈ ys, w.heap.Binds pattern y.spread y.name) ∧
      ∀ (i : Nat) (hi : i < ys.length), ys[i].spread = true →
        w.heap.NewSince w'.heap ys[i].value ∧
        (∀ h', w'.heap.Edited (· = ys[i].value) h' → w.heap.Grown h' ∧
          ∀ (j : Nat) (hj : j < ys.length), j ≠ i → ys[j].spread = true →
            h'.held ys[j].value = w'.heap.held ys[j].value) ∧
        ∀ h', w'.heap.Edited w.heap.HasValue h' →
          h'.held ys[i].value = w'.heap.held ys[i].value := by
  intro w'
  have hI : Shelter w.heap bs s (Matching w.heap s (w.heap.Binds pattern)) :=
    shelter_matching hclosed hvisible hfree
  have hgentle : Gentle w.heap bs (w.heap.Binds pattern) false pattern :=
    ⟨hpattern, fun k p e hsub he => hexprs e ⟨k, p, hsub, he⟩,
      fun k p x hsub hx hname => ⟨p, hsub, hx, hname⟩⟩
  obtain ⟨ys, hd, hbinds⟩ : Matching w.heap s (w.heap.Binds pattern) w' :=
    ((keeps_bind hI n).1 pattern place hgentle w ⟨[], .refl w.heap s, nofun⟩).1
  have hnew (i : Nat) (hi : i < ys.length) (hspread : ys[i].spread = true) :
      w.heap.NewSince w'.heap ys[i].value := hd.new _ (List.getElem_mem hi) hspread
  have hapart (i j : Nat) (hi : i < ys.length) (hj : j < ys.length) (hne : j ≠ i)
      (hspread : ys[i].spread = true) (hspread' : ys[j].spread = true)
      (htuple : ∀ vs, ys[j].value ≠ .tuple vs) : ys[j].value ≠ ys[i].value := by
    have hpairs := List.pairwise_iff_getElem.mp hd.apart
    intro heq
    rcases Nat.lt_or_gt_of_ne hne with hlt | hlt
    · exact hpairs j i hj hi hlt hspread' hspread (heq ▸ htuple) heq
    · exact hpairs i j hi hj hlt hspread hspread' htuple heq.symm
  refine ⟨hd.grown, ys, hd.layers, hbinds, fun i hi hspread => ⟨hnew i hi hspread, ?_, ?_⟩⟩
  · intro h' hedit
    refine ⟨hedit.grown hd.grown fun v hv => hv ▸ hnew i hi hspread, ?_⟩
    intro j hj hne hspread'
    exact hedit.held (hnew j hj hspread') (hapart i j hi hj hne hspread hspread')
  · intro h' hedit
    refine hedit.held (hnew i hi hspread) fun htuple hv => ?_
    exact (hnew i hi hspread).ne_of_hasValue hv htuple rfl

end EvalM

namespace Heap

def withScope (lists : Array ListCell) (bindings : List (String × Value)) : Heap :=
  { initial with
    lists
    layers := initial.layers.push { bindings, hidden := [], base := some builtinScope } }

theorem closed_withScope {lists : Array ListCell} {bindings : List (String × Value)}
    (hlists : ∀ c ∈ lists, ∀ v ∈ c.slots, (withScope lists bindings).HasValue v)
    (hbindings : ∀ b ∈ bindings, (withScope lists bindings).HasValue b.2) :
    (withScope lists bindings).Closed := by
  constructor
  · exact Nat.two_pos
  · exact hlists
  · simp [withScope, initial]
  · simp [withScope, initial]
  · simp [withScope, initial]
  · intro l hl
    rcases Array.mem_push.mp hl with hl | rfl
    · obtain rfl := List.mem_singleton.mp (Array.mem_def.mp hl)
      constructor
      · intro b hb
        obtain ⟨x, -, rfl⟩ := List.mem_map.mp hb
        exact .builtin x
      · rintro s ⟨⟩
    · refine ⟨hbindings, ?_⟩
      rintro s ⟨⟩
      exact Nat.two_pos

end Heap

namespace EvalM

def pinnedRest : Code :=
  .form [.sym "into_list", .form [.sym "list", .ofExpr (.pinned (.sym "x"))], .sym "rest"]

/-- A list with the elements 1 and 2, and 1 under the name of the pin. -/
def sharedWorld : World :=
  { World.initial with
    heap := .withScope #[{ slots := #[.int 1, .int 2], size := 2 }] [("x", .int 1)] }

theorem binds_pinnedRest {k : Bool} {x : String} (h : sharedWorld.heap.Binds pinnedRest k x) :
    k = true ∧ x = "rest" := by
  obtain ⟨q, hsub, hq, -⟩ := h
  cases hsub with
  | self => cases hq
  | @inner _ k₁ _ _ p _ hinner hsub =>
    have hspread : k₁ = true := by
      cases hinner with
      | @element b _ _ hb hc => exact absurd (Heap.tagged_form hc).1 (by cases b <;> decide)
      | value hc => exact absurd (Heap.tagged_form hc).1 (by decide)
      | chunk => rfl
    obtain ⟨hp, -⟩ := hinner.of_form
    rcases List.mem_pair.mp hp with rfl | rfl
    · obtain ⟨-, p, hp, k₂, hsub⟩ := hsub.of_form hq
      obtain rfl := List.mem_singleton.mp hp
      obtain ⟨⟨b, hb⟩, -⟩ := hsub.of_form hq
      exact absurd hb (by cases b <;> decide)
    · cases hsub with
      | self => exact ⟨hspread, (Option.some.inj hq).symm⟩
      | inner hinner => exact (Heap.not_inner_sym hinner).elim

/-- The match binds `rest` to a new list, and no change of that list changes the one that was matched. -/
theorem destructuring_copies_pinned :
    let w' := (((recursor ampleFuel).bind pinnedRest (.value (.list ⟨0⟩)) ⟨1⟩).run sharedWorld).2
    ∃ y : Binding, y.spread = true ∧ y.name = "rest" ∧
      sharedWorld.heap.NewSince w'.heap y.value ∧
      ∀ h', w'.heap.Edited (· = y.value) h' → sharedWorld.heap.Grown h' := by
  intro w'
  have hclosed : sharedWorld.heap.Closed := by
    apply Heap.closed_withScope
    · intro c hc v hv
      obtain rfl := List.mem_singleton.mp (Array.mem_def.mp hc)
      rcases List.mem_pair.mp (Array.mem_def.mp hv) with rfl | rfl
      · exact .atom _
      · exact .atom _
    · intro b hb
      obtain rfl := List.mem_singleton.mp hb
      exact .atom _
  have hcode : sharedWorld.heap.HasCode pinnedRest :=
    Heap.hasCode_ofExpr _ (.form [.sym "into_list", .form [.sym "list", .pinned (.sym "x")], .sym "rest"])
  have hexprs : ∀ e, sharedWorld.heap.Embeds pinnedRest e → sharedWorld.heap.Harmless [.quote] e := by
    intro e he
    obtain ⟨p, hp, he⟩ := Heap.embeds_of_list (.inr rfl) he
    rcases List.mem_pair.mp hp with rfl | rfl
    · obtain ⟨p, hp, he⟩ := Heap.embeds_of_list (.inl rfl) he
      obtain rfl := List.mem_singleton.mp hp
      obtain rfl := Heap.eq_of_embeds_pin he
      exact .quote ⟨_, rfl, rfl⟩ (by simp) (.unquote ⟨_, rfl, rfl⟩ rfl)
    · exact (Heap.not_embeds_sym he).elim
  have hvisible : ∀ b ∈ [Builtin.quote],
      sharedWorld.heap.lookup ⟨1⟩ b.name = some (.builtin b) := by
    intro b hb
    obtain rfl := List.mem_singleton.mp hb
    cbv
  have hfree : ∀ b ∈ [Builtin.quote], ∀ spread,
      ¬ sharedWorld.heap.Binds pinnedRest spread b.name := by
    intro b hb spread hbinds
    obtain rfl := List.mem_singleton.mp hb
    exact absurd (binds_pinnedRest hbinds).2 (by decide)
  obtain ⟨-, ys, hlayers, hbinds, hcopies⟩ := @destructuring_copies ⟨1⟩ [.quote] ampleFuel sharedWorld
    pinnedRest (.value (.list ⟨0⟩)) hclosed hcode hexprs hvisible hfree
  have hbound (n : Nat) : ((((recursor (n + 12)).bind pinnedRest (.value (.list ⟨0⟩)) ⟨1⟩).run
      sharedWorld).2.heap.lookup ⟨1⟩ "rest").isSome = true := by
    cbv
  cases ys with
  | nil =>
    have hsame : w'.heap.lookup ⟨1⟩ "rest" = sharedWorld.heap.lookup ⟨1⟩ "rest" :=
      Heap.lookup_congr (fun b _ => congrArg (fun ls => ls[b.id]?.getD _) hlayers) "rest"
    have hunbound : (sharedWorld.heap.lookup ⟨1⟩ "rest").isSome = false := by
      cbv
    rw [← hsame] at hunbound
    exact absurd (hunbound.symm.trans (hbound 999988)) (by decide)
  | cons y ys =>
    obtain ⟨hspread, hname⟩ := binds_pinnedRest (hbinds y (by simp))
    obtain ⟨hnew, hfirst, -⟩ := hcopies 0 (by simp) hspread
    exact ⟨y, hspread, hname, hnew, fun h' hedit => (hfirst h' hedit).1⟩

/-- The list `v` has the element 1, the list `x` is code that puts 9 into `v`, and the names that a pin
calls stand for other builtins. -/
def rebound : World :=
  { World.initial with
    heap := .withScope
      #[{ slots := #[.int 1], size := 1 },
        { slots := #[.sym "put", .sym "v", .int 0, .int 9], size := 4 }]
      [("v", .list ⟨0⟩), ("x", .list ⟨1⟩), ("unquote", .builtin .sequence),
        ("quote", .builtin .eval)] }

/-- A pin calls what `quote` stands for. If that evaluates code, matching a list against a pin of a symbol
can change the list. -/
theorem pin_changes_list :
    let pin := Code.ofExpr (.pinned (.sym "x"))
    (∀ e, rebound.heap.Embeds pin e → rebound.heap.Harmless [.quote] e) ∧
      rebound.heap.elems ⟨0⟩ = [.int 1] ∧
      (((recursor ampleFuel).bind pin (.value (.list ⟨0⟩)) ⟨1⟩).run rebound).2.heap.elems ⟨0⟩ =
        [.int 9] := by
  intro pin
  have hrun (n : Nat) : (((recursor (n + 12)).bind pin (.value (.list ⟨0⟩)) ⟨1⟩).run
      rebound).2.heap.elems ⟨0⟩ = [.int 9] := by
    cbv
  refine ⟨fun e he => ?_, rfl, hrun 999988⟩
  obtain rfl := Heap.eq_of_embeds_pin he
  exact .quote ⟨_, rfl, rfl⟩ (by simp) (.unquote ⟨_, rfl, rfl⟩ rfl)

end EvalM

end EventTally
