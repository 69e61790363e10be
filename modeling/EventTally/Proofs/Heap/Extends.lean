import EventTally.Proofs.Heap.Sound
import EventTally.Proofs.Keyed

/-! # Heaps that only grow

A heap extends another if every object of the other is still there unchanged. A value shows a datum
in a heap if it is seen as that datum in every extension, however far references are followed beyond
the number of objects; so what it shows can no longer change. New values show the data they were
made of.
-/

namespace EventTally

def Grows {α : Type} (as bs : Array α) : Prop := ∀ (i : Nat) a, as[i]? = some a → bs[i]? = some a

namespace Grows

variable {α : Type} {as bs cs : Array α}

theorem refl (as : Array α) : Grows as as := fun _ _ h => h

theorem trans (h : Grows as bs) (h' : Grows bs cs) : Grows as cs := fun i a ha => h' i a (h i a ha)

theorem push (as : Array α) (a : α) : Grows as (as.push a) := by
  intro i b hb
  obtain ⟨hi, -⟩ := Array.getElem?_eq_some_iff.mp hb
  rw [Array.getElem?_push, if_neg (Nat.ne_of_lt hi)]
  exact hb

theorem size_le (h : Grows as bs) : as.size ≤ bs.size := by
  by_contra hle
  have hlt : bs.size < as.size := by omega
  have hlast := h bs.size as[bs.size] (Array.getElem?_eq_getElem hlt)
  rw [Array.getElem?_size] at hlast
  cases hlast

end Grows

namespace Heap

structure Extends (h h' : Heap) : Prop where
  lists : Grows h.lists h'.lists
  dicts : Grows h.dicts h'.dicts
  sets : Grows h.sets h'.sets
  closures : Grows h.closures h'.closures
  layers : Grows h.layers h'.layers

namespace Extends

variable {h h' h'' : Heap}

theorem refl (h : Heap) : h.Extends h := ⟨.refl _, .refl _, .refl _, .refl _, .refl _⟩

theorem trans (h₁ : h.Extends h') (h₂ : h'.Extends h'') : h.Extends h'' :=
  ⟨h₁.lists.trans h₂.lists, h₁.dicts.trans h₂.dicts, h₁.sets.trans h₂.sets,
    h₁.closures.trans h₂.closures, h₁.layers.trans h₂.layers⟩

theorem objectCount_le (hext : h.Extends h') : h.objectCount ≤ h'.objectCount := by
  have hlists := hext.lists.size_le
  have hdicts := hext.dicts.size_le
  have hsets := hext.sets.size_le
  have hclosures := hext.closures.size_le
  unfold objectCount
  omega

theorem newList (h : Heap) (vs : List Value) : h.Extends (h.newList vs).2 :=
  ⟨.push _ _, .refl _, .refl _, .refl _, .refl _⟩

theorem newDict (h : Heap) (es : List (Value × Value)) : h.Extends (h.newDict es).2 :=
  ⟨.refl _, .push _ _, .refl _, .refl _, .refl _⟩

theorem newSet (h : Heap) (vs : List Value) : h.Extends (h.newSet vs).2 :=
  ⟨.refl _, .refl _, .push _ _, .refl _, .refl _⟩

theorem child (h : Heap) (s : ScopeRef) : h.Extends (h.child s).2 :=
  ⟨.refl _, .refl _, .refl _, .refl _, .push _ _⟩

end Extends

/-- The value is and stays the datum. -/
def Shows (h : Heap) (v : Value) (d : Datum) : Prop :=
  ∀ h', h.Extends h' → ∀ n, h.objectCount ≤ n → v.view (h'.lens n) = d

theorem Shows.mono {h h' : Heap} {v : Value} {d : Datum} (hv : h.Shows v d) (hext : h.Extends h') :
    h'.Shows v d := by
  intro h'' hext' n hn
  exact hv h'' (hext.trans hext') n (hext.objectCount_le.trans hn)

theorem Shows.view {h : Heap} {v : Value} {d : Datum} (hv : h.Shows v d) :
    v.view (h.lens (h.objectCount + 1)) = d :=
  hv h (.refl h) _ (Nat.le_succ _)

theorem Shows.datum {h : Heap} {v : Value} {d : Datum} (hv : h.Shows v d) : h.datum v = d :=
  SeenAs.datum (hv h (.refl h))

theorem Shows.isFinite {h : Heap} {v : Value} {d : Datum} (hv : h.Shows v d) : h.isFinite v = true :=
  SeenAs.isFinite (hv h (.refl h))

theorem shows_atom (h : Heap) (a : Atom) : h.Shows (.atom a) (.atom a) := fun _ _ _ _ => rfl

theorem Shows.eq_atom {h : Heap} {v : Value} {a : Atom} (hv : h.Shows v (.atom a)) : v = .atom a := by
  have hview := hv.view
  cases v with
  | atom b => exact congrArg Value.atom (Datum.atom.inj hview)
  | tuple vs => cases hview
  | list r => cases hview
  | dict r => cases hview
  | set r => cases hview
  | builtin b => cases hview
  | closure r => cases hview

theorem Extends.entries {h h' : Heap} (hext : h.Extends h') {r : DictRef}
    (hr : r.id < h.dicts.size) : h'.entries r = h.entries r := by
  have hold := Array.getElem?_eq_getElem hr
  unfold Heap.entries
  rw [hold, hext.dicts r.id _ hold]

theorem views_eq_of_shows {h h' : Heap} (hext : h.Extends h') {n : Nat} (hn : h.objectCount ≤ n)
    {vs : List Value} {ds : List Datum} (hvs : List.Forall₂ h.Shows vs ds) :
    vs.map (Value.view (h'.lens n)) = ds := by
  induction hvs with
  | nil => rfl
  | cons hv _ ih => rw [List.map_cons, hv h' hext n hn, ih]

theorem shows_tuple {h : Heap} {vs : List Value} {ds : List Datum}
    (hvs : List.Forall₂ h.Shows vs ds) : h.Shows (.tuple vs) (.tuple ds) := by
  intro h' hext n hn
  rw [Value.view, Value.views_eq_map, views_eq_of_shows hext hn hvs]

theorem shows_newList {h : Heap} {vs : List Value} {ds : List Datum}
    (hvs : List.Forall₂ h.Shows vs ds) :
    (h.newList vs).2.Shows (.list (h.newList vs).1) (.list ds) := by
  intro h' hext n hn
  have hcell : h'.lists[h.lists.size]? = some { slots := vs.toArray, size := vs.length } :=
    hext.lists _ _ Array.getElem?_push_size
  have hcount : (h.newList vs).2.objectCount = h.objectCount + 1 := by
    simp only [newList, objectCount, Array.size_push]
    omega
  -- The list itself takes one step of following references, its elements what is left.
  obtain ⟨k, rfl⟩ : ∃ k, n = k + 1 := ⟨n - 1, by omega⟩
  have helems : h'.elems (h.newList vs).1 = vs := by
    simp [elems, list, newList, hcell]
  rw [Value.view, lens]
  dsimp only
  rw [helems, views_eq_of_shows ((Extends.newList h vs).trans hext) (by omega) hvs]

theorem shows_newSet {h : Heap} {vs : List Value} {ds : List Datum}
    (hvs : List.Forall₂ h.Shows vs ds) :
    (h.newSet vs).2.Shows (.set (h.newSet vs).1) (.set ds) := by
  intro h' hext n hn
  have hcell : h'.sets[h.sets.size]? = some vs := hext.sets _ _ Array.getElem?_push_size
  have hcount : (h.newSet vs).2.objectCount = h.objectCount + 1 := by
    simp only [newSet, objectCount, Array.size_push]
    omega
  obtain ⟨k, rfl⟩ : ∃ k, n = k + 1 := ⟨n - 1, by omega⟩
  have hmembers : h'.members (h.newSet vs).1 = vs := by
    simp [members, newSet, hcell]
  rw [Value.view, lens]
  dsimp only
  rw [hmembers, views_eq_of_shows ((Extends.newSet h vs).trans hext) (by omega) hvs]

def ShowsEntry (h : Heap) (e : Value × Value) (d : Datum × Datum) : Prop :=
  h.Shows e.1 d.1 ∧ h.Shows e.2 d.2

theorem ShowsEntry.mono {h h' : Heap} {e : Value × Value} {d : Datum × Datum}
    (he : h.ShowsEntry e d) (hext : h.Extends h') : h'.ShowsEntry e d :=
  ⟨he.1.mono hext, he.2.mono hext⟩

theorem entryViews_eq_of_shows {h h' : Heap} (hext : h.Extends h') {n : Nat}
    (hn : h.objectCount ≤ n) {es : List (Value × Value)} {ds : List (Datum × Datum)}
    (hes : List.Forall₂ h.ShowsEntry es ds) :
    es.map (fun e => (e.1.view (h'.lens n), e.2.view (h'.lens n))) = ds := by
  induction hes with
  | nil => rfl
  | cons he _ ih => rw [List.map_cons, he.1 h' hext n hn, he.2 h' hext n hn, ih]

theorem shows_newDict {h : Heap} {es : List (Value × Value)} {ds : List (Datum × Datum)}
    (hes : List.Forall₂ h.ShowsEntry es ds) :
    (h.newDict es).2.Shows (.dict (h.newDict es).1) (.dict ds) := by
  intro h' hext n hn
  have hcell : h'.dicts[h.dicts.size]? = some es := hext.dicts _ _ Array.getElem?_push_size
  have hcount : (h.newDict es).2.objectCount = h.objectCount + 1 := by
    simp only [newDict, objectCount, Array.size_push]
    omega
  obtain ⟨k, rfl⟩ : ∃ k, n = k + 1 := ⟨n - 1, by omega⟩
  have hentries : h'.entries (h.newDict es).1 = es := by
    simp [entries, newDict, hcell]
  rw [Value.view, lens]
  dsimp only
  rw [hentries, entryViews_eq_of_shows ((Extends.newDict h es).trans hext) (by omega) hes]

end Heap

inductive Datum.Inert : Datum → Prop
  | atom (a : Atom) : Inert (.atom a)
  | list {ds : List Datum} (h : ∀ d ∈ ds, Inert d) : Inert (.list ds)
  | tuple {ds : List Datum} (h : ∀ d ∈ ds, Inert d) : Inert (.tuple ds)
  | dict {es : List (Datum × Datum)} (h : ∀ e ∈ es, Inert e.1) (h' : ∀ e ∈ es, Inert e.2) :
      Inert (.dict es)
  | set {ds : List Datum} (h : ∀ d ∈ ds, Inert d) : Inert (.set ds)

theorem Codec.inert_collection {kind : String} {ds : List Datum} (h : ∀ d ∈ ds, d.Inert) {d : Datum}
    (hd : collection kind ds = .ok d) : d.Inert := by
  unfold collection at hd
  split at hd
  · cases hd
    exact .tuple h
  · split at hd
    · obtain ⟨elems, helems, hd⟩ := bind_eq_ok hd
      cases hd
      refine .set (foldlM_invariant (P := fun acc => ∀ e ∈ acc, e.Inert) ?_ (by simp) helems)
      intro acc e he acc' hacc heq
      split at heq
      · cases heq
        intro e' he'
        rcases mem_insertElem he' with rfl | he'
        · exact h _ he
        · exact hacc e' he'
      · cases heq
    · split at hd
      · obtain ⟨entries, hentries, hd⟩ := bind_eq_ok hd
        cases hd
        have hall := foldlM_invariant (P := fun acc : List (Datum × Datum) =>
          ∀ e ∈ acc, e.1.Inert ∧ e.2.Inert) ?_ (by simp) hentries
        · exact .dict (fun e he => (hall e he).1) fun e he => (hall e he).2
        · intro acc e he acc' hacc heq
          split at heq
          · next k v =>
            split at heq
            · cases heq
              intro e' he'
              rcases mem_insert he' with rfl | he'
              · cases h _ he with
                | list hkv => exact ⟨hkv k (by simp), hkv v (by simp)⟩
              · exact hacc e' he'
            · cases heq
          · cases heq
      · cases hd

theorem Codec.closed_inert : Closed Datum.Inert where
  atom := .atom
  list := .list
  collection := fun h hd => inert_collection h hd

theorem Codec.plainClosed_inert : PlainClosed Datum.Inert where
  atom := .atom
  list := .list
  dict := by
    intro es hkeys hvalues
    refine .dict ?_ hvalues
    intro e he
    obtain ⟨a, ha⟩ := hkeys e he
    rw [ha]
    exact .atom a

namespace Heap

mutual

theorem thaw_shows (h : Heap) {d : Datum} (hd : d.Inert) :
    h.Extends (h.thaw d).2 ∧ (h.thaw d).2.Shows (h.thaw d).1 d := by
  match d, hd with
  | .atom a, _ => exact ⟨.refl h, shows_atom h a⟩
  | .list ds, .list hds =>
    obtain ⟨hext, hshows⟩ := h.thawAll_shows hds
    exact ⟨hext.trans (.newList _ _), shows_newList hshows⟩
  | .tuple ds, .tuple hds =>
    obtain ⟨hext, hshows⟩ := h.thawAll_shows hds
    exact ⟨hext, shows_tuple hshows⟩
  | .dict es, .dict hes hes' =>
    obtain ⟨hext, hshows⟩ := h.thawEntries_shows hes hes'
    exact ⟨hext.trans (.newDict _ _), shows_newDict hshows⟩
  | .set ds, .set hds =>
    obtain ⟨hext, hshows⟩ := h.thawAll_shows hds
    exact ⟨hext.trans (.newSet _ _), shows_newSet hshows⟩

theorem thawAll_shows (h : Heap) {ds : List Datum} (hds : ∀ d ∈ ds, d.Inert) :
    h.Extends (h.thawAll ds).2 ∧ List.Forall₂ (h.thawAll ds).2.Shows (h.thawAll ds).1 ds := by
  match ds with
  | [] => exact ⟨.refl h, .nil⟩
  | d :: ds =>
    obtain ⟨hd, hds⟩ := List.forall_mem_cons.mp hds
    obtain ⟨hext, hshow⟩ := h.thaw_shows hd
    obtain ⟨hext', hshows⟩ := (h.thaw d).2.thawAll_shows hds
    exact ⟨hext.trans hext', .cons (hshow.mono hext') hshows⟩

theorem thawEntries_shows (h : Heap) {es : List (Datum × Datum)} (hes : ∀ e ∈ es, e.1.Inert)
    (hes' : ∀ e ∈ es, e.2.Inert) :
    h.Extends (h.thawEntries es).2 ∧
      List.Forall₂ (h.thawEntries es).2.ShowsEntry (h.thawEntries es).1 es := by
  match es with
  | [] => exact ⟨.refl h, .nil⟩
  | (k, v) :: es =>
    obtain ⟨hk, hes⟩ := List.forall_mem_cons.mp hes
    obtain ⟨hv, hes'⟩ := List.forall_mem_cons.mp hes'
    obtain ⟨hext, hkey⟩ := h.thaw_shows hk
    obtain ⟨hext', hvalue⟩ := (h.thaw k).2.thaw_shows hv
    obtain ⟨hext'', hshows⟩ := ((h.thaw k).2.thaw v).2.thawEntries_shows hes hes'
    refine ⟨hext.trans (hext'.trans hext''), .cons ⟨?_, ?_⟩ hshows⟩
    · exact hkey.mono (hext'.trans hext'')
    · exact hvalue.mono hext''

end

theorem sameKey_shows {h : Heap} {k l : Value} {dk dl : Datum} (hk : h.Shows k dk)
    (hl : h.Shows l dl) : h.sameKey k l = dk.sameKey dl := by
  change (h.datum k).sameKey (h.datum l) = _
  rw [hk.datum, hl.datum]

section

variable {h : Heap} {k v : Value} {dk dv : Datum} {entries : List (Value × Value)}
  {groups : List (Datum × Datum)} (hk : h.Shows k dk)
  (hentries : List.Forall₂ h.ShowsEntry entries groups)
include hk hentries

theorem findEntry_shows : Option.Rel h.Shows (h.findEntry entries k) (Keyed.find? dk.sameKey groups) := by
  unfold Heap.findEntry
  induction hentries with
  | nil => exact .none
  | cons he _ ih =>
    rw [Keyed.find?_cons, Keyed.find?_cons, sameKey_shows hk he.1]
    split
    · exact .some he.2
    · exact ih

theorem insert_shows (hv : h.Shows v dv) : List.Forall₂ h.ShowsEntry
    (Keyed.insert (h.sameKey k) k v entries) (Keyed.insert dk.sameKey dk dv groups) := by
  induction hentries with
  | nil => exact .cons ⟨hk, hv⟩ .nil
  | cons he hrest ih =>
    rw [Keyed.insert_cons, Keyed.insert_cons, sameKey_shows hk he.1]
    split
    · exact .cons ⟨hk, hv⟩ hrest
    · exact .cons he ih

end

end Heap

end EventTally
