import EventTally.Proofs.Datum.Shape
import EventTally.Proofs.Keyed

/-! # The storage encoding loses nothing

A sound datum can be stored unless some part of it is a callable, a NaN or an infinity, or it is nested
too deep (`marshal_eq_error_iff`). If its keys are apart it comes back identical, and so does whatever was read
from a stored text (`marshal_unmarshal_identical`). Equality of numbers is not transitive beyond `2^53`,
so a collection can come to hold two keys that are equal with one hash; it loses one of them when it is
stored and read.
-/

namespace EventTally

open Datum (Identical PartOf KeysApart)

namespace Codec

/-- Callables, NaN and the infinities. -/
inductive Unstorable : Datum → Prop
  | float {f : Float} (h : (f.isInf || f.isNaN) = true) : Unstorable (.float f)
  | builtin (name : String) : Unstorable (.builtin name)
  | closure (id : Nat) (name : String) (pattern body : Datum) : Unstorable (.closure id name pattern body)

theorem encode_unstorable {d : Datum} (h : Unstorable d) : ∃ r, encode d = .error r := by
  cases h with
  | @float f h => exact ⟨.nonFinite, by rw [encode, encodeAtom, if_pos h]⟩
  | builtin name => exact ⟨_, by rw [encode]⟩
  | closure id name pattern body => exact ⟨_, by rw [encode]⟩

theorem bind_error {ε α β : Type} {x : Except ε α} (f : α → Except ε β) (h : ∃ r, x = .error r) :
    ∃ r, x >>= f = .error r := by
  obtain ⟨r, rfl⟩ := h
  exact ⟨r, rfl⟩

theorem bind_error_right {ε α β : Type} (x : Except ε α) {f : α → Except ε β}
    (h : ∀ a, ∃ r, f a = .error r) : ∃ r, x >>= f = .error r := by
  cases x with
  | error r => exact ⟨r, rfl⟩
  | ok a => exact h a

theorem encodeAll_error {ds : List Datum} {d : Datum} (hmem : d ∈ ds) (h : ∃ r, encode d = .error r) :
    ∃ r, encodeAll ds = .error r := by
  induction hmem with
  | head =>
    rw [encodeAll]
    exact bind_error _ h
  | tail _ _ ih =>
    rw [encodeAll]
    exact bind_error_right _ fun _ => bind_error _ ih

theorem encodeEntries_error {es : List (Datum × Datum)} {e : Datum × Datum} (hmem : e ∈ es)
    (h : (∃ r, encode e.1 = .error r) ∨ ∃ r, encode e.2 = .error r) :
    ∃ r, encodeEntries es = .error r := by
  induction hmem with
  | head es =>
    obtain ⟨k, v⟩ := e
    rw [encodeEntries]
    rcases h with h | h
    · exact bind_error _ h
    · exact bind_error_right _ fun _ => bind_error _ h
  | @tail e' _ _ ih =>
    obtain ⟨k, v⟩ := e'
    rw [encodeEntries]
    exact bind_error_right _ fun _ => bind_error_right _ fun _ => bind_error _ ih

theorem encode_error_of_part {p d : Datum} (hpart : PartOf p d) (h : Unstorable p) :
    ∃ r, encode d = .error r := by
  induction hpart with
  | self => exact encode_unstorable h
  | list hmem _ ih | tuple hmem _ ih | set hmem _ ih =>
    rw [encode]
    exact bind_error _ (encodeAll_error hmem ih)
  | key hmem _ ih =>
    rw [encode]
    exact bind_error _ (encodeEntries_error hmem (Or.inl ih))
  | value hmem _ ih =>
    rw [encode]
    exact bind_error _ (encodeEntries_error hmem (Or.inr ih))

theorem bind_pure_error {ε α β : Type} {x : Except ε α} {g : α → β} {r : ε}
    (h : (x >>= fun a => pure (g a)) = .error r) : x = .error r := by
  cases x with
  | error r' =>
    cases h
    rfl
  | ok a => cases h

mutual

theorem part_of_encode_error {d : Datum} {r : Reason} (h : encode d = .error r) :
    ∃ p, PartOf p d ∧ Unstorable p := by
  match d with
  | .atom a =>
    refine ⟨_, .self, ?_⟩
    rw [encode] at h
    cases a with
    | float f =>
      simp only [encodeAtom] at h
      split at h
      · next hf => exact .float hf
      · cases h
    | _ => cases h
  | .list ds =>
    rw [encode] at h
    obtain ⟨p, d, hmem, hpart, hp⟩ := part_of_encodeAll_error (bind_pure_error h)
    exact ⟨p, .list hmem hpart, hp⟩
  | .tuple ds =>
    rw [encode] at h
    obtain ⟨p, d, hmem, hpart, hp⟩ := part_of_encodeAll_error (bind_pure_error h)
    exact ⟨p, .tuple hmem hpart, hp⟩
  | .set ds =>
    rw [encode] at h
    obtain ⟨p, d, hmem, hpart, hp⟩ := part_of_encodeAll_error (bind_pure_error h)
    exact ⟨p, .set hmem hpart, hp⟩
  | .dict es =>
    rw [encode] at h
    obtain ⟨p, e, hmem, hpart | hpart, hp⟩ := part_of_encodeEntries_error (bind_pure_error h)
    · exact ⟨p, .key hmem hpart, hp⟩
    · exact ⟨p, .value hmem hpart, hp⟩
  | .builtin name => exact ⟨_, .self, .builtin name⟩
  | .closure id name pattern body => exact ⟨_, .self, .closure id name pattern body⟩

theorem part_of_encodeAll_error {ds : List Datum} {r : Reason} (h : encodeAll ds = .error r) :
    ∃ p, ∃ d ∈ ds, PartOf p d ∧ Unstorable p := by
  match ds with
  | [] =>
    rw [encodeAll] at h
    cases h
  | d :: ds =>
    rw [encodeAll] at h
    cases hd : encode d with
    | error r' =>
      obtain ⟨p, hpart, hp⟩ := part_of_encode_error hd
      exact ⟨p, d, by simp, hpart, hp⟩
    | ok j =>
      rw [hd] at h
      obtain ⟨p, d', hmem, hpart, hp⟩ := part_of_encodeAll_error (bind_pure_error h)
      exact ⟨p, d', by simp [hmem], hpart, hp⟩

theorem part_of_encodeEntries_error {es : List (Datum × Datum)} {r : Reason}
    (h : encodeEntries es = .error r) :
    ∃ p, ∃ e ∈ es, (PartOf p e.1 ∨ PartOf p e.2) ∧ Unstorable p := by
  match es with
  | [] =>
    rw [encodeEntries] at h
    cases h
  | (k, v) :: es =>
    rw [encodeEntries] at h
    cases hk : encode k with
    | error r' =>
      obtain ⟨p, hpart, hp⟩ := part_of_encode_error hk
      exact ⟨p, (k, v), by simp, Or.inl hpart, hp⟩
    | ok j =>
      cases hv : encode v with
      | error r' =>
        obtain ⟨p, hpart, hp⟩ := part_of_encode_error hv
        exact ⟨p, (k, v), by simp, Or.inr hpart, hp⟩
      | ok l =>
        rw [hk, hv] at h
        obtain ⟨p, e, hmem, hpart, hp⟩ := part_of_encodeEntries_error (bind_pure_error h)
        exact ⟨p, e, by simp [hmem], hpart, hp⟩

end

theorem marshal_of_encode {d : Datum} {j : Json} (h : encode d = .ok j) :
    marshal d = if j.opened ≤ Json.maxDepth then .ok j.text else .error .tooDeep := by
  unfold marshal
  rw [h]
  rfl

theorem marshal_eq_ok {d : Datum} {j : Json} (h : encode d = .ok j) (hopened : j.opened ≤ Json.maxDepth) :
    marshal d = .ok j.text := by
  rw [marshal_of_encode h, if_pos hopened]

theorem encode_of_marshal {d : Datum} {text : String} (h : marshal d = .ok text) :
    ∃ j, encode d = .ok j ∧ j.opened ≤ Json.maxDepth ∧ j.text = text := by
  obtain ⟨j, hj, h⟩ := bind_eq_ok h
  split at h
  · next hopened => exact ⟨j, hj, hopened, Except.ok.inj h⟩
  · cases h

/-- What cannot be stored is what has a part that cannot, or is nested too deep. -/
theorem marshal_eq_error_iff {d : Datum} :
    (∃ r, marshal d = .error r) ↔
      (∃ p, PartOf p d ∧ Unstorable p) ∨ ∃ j, encode d = .ok j ∧ Json.maxDepth < j.opened := by
  constructor
  · rintro ⟨r, h⟩
    rcases hencode : encode d with e | j
    · exact .inl (part_of_encode_error hencode)
    · refine .inr ⟨j, rfl, Nat.lt_of_not_le fun hopened => ?_⟩
      rw [marshal_eq_ok hencode hopened] at h
      cases h
  · rintro (⟨p, hpart, hp⟩ | ⟨j, hj, hopened⟩)
    · exact bind_error _ (encode_error_of_part hpart hp)
    · exact ⟨.tooDeep, by rw [marshal_of_encode hj, if_neg (Nat.not_le.mpr hopened)]⟩

theorem encode_eq_ok {d : Datum} (h : ¬ ∃ p, PartOf p d ∧ Unstorable p) : ∃ j, encode d = .ok j := by
  cases hd : encode d with
  | error r => exact absurd (part_of_encode_error hd) h
  | ok j => exact ⟨j, rfl⟩

theorem decodeElems_forall₂ {α : Type} {E : α → Json → Prop} {R : α → Datum → Prop} {as : List α}
    {js : List Json} (h : List.Forall₂ E as js)
    (hR : ∀ a ∈ as, ∀ j, E a j → ∃ d, decode j = .ok d ∧ R a d) :
    ∃ ds, decodeElems decodeNumber js = .ok ds ∧ List.Forall₂ R as ds := by
  induction h with
  | nil => exact ⟨[], by rw [decodeElems], .nil⟩
  | @cons a j as js hj _ ih =>
    obtain ⟨d, hd, haR⟩ := hR a (by simp) j hj
    obtain ⟨ds, hds, hall⟩ := ih fun b hb => hR b (by simp [hb])
    refine ⟨d :: ds, ?_, .cons haR hall⟩
    unfold decode at hd
    rw [decodeElems, hd, hds]
    rfl

theorem forall₂_sortByText {α : Type} {E : α → Json → Prop} {as : List α} {js : List Json}
    (h : List.Forall₂ E as js) : ∃ bs, as.Perm bs ∧ List.Forall₂ E bs (sortByText js) := by
  have horder : (sortByText js).Perm js := List.mergeSort_perm js _
  obtain ⟨bs, hbs, hperm⟩ := List.perm_comp_forall₂ horder h.flip
  exact ⟨bs, hperm.symm, hbs.flip⟩

/-- If every step adds its element at the end as long as it is apart from those before, all elements
are added in order. -/
theorem foldlM_append {ε α : Type} {R : α → α → Prop} {step : List α → α → Except ε (List α)} {as : List α}
    (hstep : ∀ acc, ∀ a ∈ as, (∀ b ∈ acc, R b a) → step acc a = .ok (acc ++ [a])) (acc : List α)
    (h : (acc ++ as).Pairwise R) : as.foldlM step acc = .ok (acc ++ as) := by
  induction as generalizing acc with
  | nil =>
    rw [List.append_nil]
    rfl
  | cons a as ih =>
    have hnew := hstep acc a (by simp) fun b hb => (List.pairwise_append.mp h).2.2 b hb a (by simp)
    rw [List.append_cons] at h ⊢
    rw [List.foldlM_cons, hnew]
    exact ih (fun acc b hb => hstep acc b (by simp [hb])) _ h

theorem setOf_of_apart {ds : List Datum} (hkey : ∀ d ∈ ds, d.hashable = true)
    (h : ds.Pairwise fun x y => y.sameKey x = false) : setOf ds = .ok (.set ds) := by
  unfold setOf
  rw [foldlM_append (fun acc d hd hacc => ?_) [] h]
  · rfl
  · rw [if_pos (hkey d hd), Keyed.insertElem_eq_append hacc]

theorem dictOf_of_apart (es : List (Datum × Datum)) (hkey : ∀ e ∈ es, e.1.hashable = true)
    (h : es.Pairwise fun x y => y.1.sameKey x.1 = false) :
    dictOf (es.map fun e => .list [e.1, e.2]) = .ok (.dict es) := by
  unfold dictOf
  rw [List.foldlM_map, foldlM_append (fun acc e he hacc => ?_) [] h]
  · rfl
  · simp only [if_pos (hkey e he)]
    rw [Keyed.insert_eq_append _ hacc]

theorem entries_of_forall₂ {R : Datum → Datum → Prop} {es : List (Datum × Datum)} {ds : List Datum}
    (h : List.Forall₂ (fun e d => ∃ v, d = .list [e.1, v] ∧ R e.2 v) es ds) :
    ∃ ys : List (Datum × Datum), ds = ys.map (fun y => .list [y.1, y.2]) ∧
      List.Forall₂ (fun e y => y.1 = e.1 ∧ R e.2 y.2) es ys := by
  induction h with
  | nil => exact ⟨[], rfl, .nil⟩
  | @cons e d es ds hd _ ih =>
    obtain ⟨v, rfl, hv⟩ := hd
    obtain ⟨ys, rfl, hys⟩ := ih
    exact ⟨(e.1, v) :: ys, rfl, .cons ⟨rfl, hv⟩ hys⟩

theorem map_fst_of_forall₂ {R : Datum → Datum → Prop} {es ys : List (Datum × Datum)}
    (h : List.Forall₂ (fun e y => y.1 = e.1 ∧ R e.2 y.2) es ys) : ys.map Prod.fst = es.map Prod.fst := by
  induction h with
  | nil => rfl
  | cons hy _ ih => rw [List.map_cons, List.map_cons, hy.1, ih]

theorem decode_encode_hashable {d : Datum} (hd : d.hashable = true) {j : Json} (h : encode d = .ok j) :
    decode j = .ok d := by
  obtain ⟨d', hd', heq⟩ := decode_encode (Datum.sound_of_hashable hd) h
  rw [hd', heq hd]

theorem decode_encode_identical {d : Datum} (hd : d.Sound) (hapart : d.KeysApart) {j : Json}
    (h : encode d = .ok j) : ∃ d', decode j = .ok d' ∧ Identical d d' := by
  induction hd generalizing j with
  | atom a =>
    rw [encode] at h
    exact ⟨.atom a, decode_encodeAtom h, .atom a⟩
  | list _ ih =>
    cases hapart with | list hparts
    rw [encode] at h
    obtain ⟨js, hjs, h⟩ := bind_eq_ok h
    cases h
    obtain ⟨ds', hds', hall⟩ := decodeElems_forall₂ (encodeAll_eq_ok hjs) fun d hmem j hj =>
      ih d hmem (hparts d hmem) hj
    obtain ⟨hlength, hzip⟩ := List.forall₂_iff_zip.mp hall
    exact ⟨.list ds', decode_list hds', .list hlength fun p hp => hzip hp⟩
  | tuple _ ih =>
    cases hapart with | tuple hparts
    rw [encode] at h
    obtain ⟨js, hjs, h⟩ := bind_eq_ok h
    cases h
    obtain ⟨ds', hds', hall⟩ := decodeElems_forall₂ (encodeAll_eq_ok hjs) fun d hmem j hj =>
      ih d hmem (hparts d hmem) hj
    obtain ⟨hlength, hzip⟩ := List.forall₂_iff_zip.mp hall
    refine ⟨.tuple ds', ?_, .tuple hlength fun p hp => hzip hp⟩
    rw [decode_field, hds']
    rfl
  | set hkey _ ih =>
    cases hapart with | set hapart
    rw [encode] at h
    obtain ⟨js, hjs, h⟩ := bind_eq_ok h
    cases h
    obtain ⟨zs, horder, hzs⟩ := forall₂_sortByText (encodeAll_eq_ok hjs)
    have hkey' : ∀ d ∈ zs, d.hashable = true := fun d hd => hkey d (horder.mem_iff.mpr hd)
    have hexact : decodeElems decodeNumber (sortByText js) = .ok zs :=
      decodeElems_encodeAll hzs fun d hd j hj => decode_encode_hashable (hkey' d hd) hj
    have hpairwise := Datum.pairwise_not_sameKey id hkey hapart horder
    refine ⟨.set zs, ?_, .set horder rfl fun p hp => ?_⟩
    · rw [decode_field, hexact]
      exact setOf_of_apart hkey' hpairwise
    · rw [(Datum.mem_zip_self hp).2]
      exact .refl _
  | @dict es hkey _ _ ih ih' =>
    cases hapart with | dict hapart hparts
    rw [encode] at h
    obtain ⟨js, hjs, h⟩ := bind_eq_ok h
    cases h
    obtain ⟨zs, horder, hzs⟩ := forall₂_sortByText (encodeEntries_eq_ok hjs)
    obtain ⟨ds, hds, hall⟩ := decodeElems_forall₂
      (R := fun e d => ∃ v, d = .list [e.1, v] ∧ Identical e.2 v) hzs fun e hmem j hj => by
        obtain ⟨k, v, hk, hv, rfl⟩ := hj
        have hmem' : e ∈ es := horder.mem_iff.mpr hmem
        obtain ⟨v', hv', hsame⟩ := ih' e hmem' (hparts e hmem') hv
        have hk' := decode_encode_hashable (hkey e hmem') hk
        exact ⟨.list [e.1, v'], decode_pair hk' hv', v', rfl, hsame⟩
    obtain ⟨ys, rfl, hys⟩ := entries_of_forall₂ hall
    obtain ⟨hlength, hzip⟩ := List.forall₂_iff_zip.mp hys
    have hkeys := map_fst_of_forall₂ hys
    have hkey' : ∀ y ∈ ys, y.1.hashable = true := by
      intro y hy
      obtain ⟨e, he, heq⟩ := List.mem_map.mp (hkeys ▸ List.mem_map_of_mem hy)
      rw [← heq]
      exact hkey e (horder.mem_iff.mpr he)
    have hpairwise : ys.Pairwise fun x y => y.1.sameKey x.1 = false := by
      have h := Datum.pairwise_not_sameKey Prod.fst hkey hapart horder
      rw [← List.pairwise_map (f := Prod.fst) (R := fun x y : Datum => y.sameKey x = false)] at h ⊢
      rwa [hkeys]
    refine ⟨.dict ys, ?_, .dict horder hlength (fun p hp => ?_) fun p hp => (hzip hp).2⟩
    · rw [decode_field, hds]
      exact dictOf_of_apart _ hkey' hpairwise
    · rw [(hzip hp).1]
      exact .refl _
  | builtin name =>
    rw [encode] at h
    cases h
  | closure id name pattern body =>
    rw [encode] at h
    cases h

theorem unmarshal_text_identical {d : Datum} (hd : d.Sound) (hapart : d.KeysApart) {j : Json}
    (h : encode d = .ok j) (hdepth : j.depth ≤ Json.maxDepth) :
    ∃ d', unmarshal j.text = .ok d' ∧ Identical d d' := by
  obtain ⟨d', hd', hsame⟩ := decode_encode_identical hd hapart h
  refine ⟨d', ?_, hsame⟩
  unfold unmarshal Json.text
  rw [String.toList_ofList, Json.readFirst_write (encode_proper h) hdepth]
  exact hd'

/-- The datum can be stored, nested no deeper than some level. -/
def Fits (level : Nat) (d : Datum) : Prop := ∃ j, encode d = .ok j ∧ j.depth ≤ level

theorem encodeAll_of_fits {level : Nat} {ds : List Datum} (h : ∀ d ∈ ds, Fits level d) :
    ∃ js, encodeAll ds = .ok js ∧ Json.depthAll js ≤ level := by
  induction ds with
  | nil => exact ⟨[], by rw [encodeAll], Nat.zero_le _⟩
  | cons d ds ih =>
    obtain ⟨⟨j, hj, hdepth⟩, hrest⟩ := List.forall_mem_cons.mp h
    obtain ⟨js, hjs, hdepths⟩ := ih hrest
    refine ⟨j :: js, ?_, Nat.max_le.mpr ⟨hdepth, hdepths⟩⟩
    rw [encodeAll, hj, hjs]
    rfl

theorem encodeEntries_of_fits {level : Nat} {es : List (Datum × Datum)}
    (h : ∀ e ∈ es, Fits level (.list [e.1, e.2])) :
    ∃ js, encodeEntries es = .ok js ∧ Json.depthAll js ≤ level := by
  induction es with
  | nil => exact ⟨[], by rw [encodeEntries], Nat.zero_le _⟩
  | cons e es ih =>
    obtain ⟨k, v⟩ := e
    obtain ⟨⟨j, hj, hdepth⟩, hrest⟩ := List.forall_mem_cons.mp h
    obtain ⟨js, hjs, hdepths⟩ := ih hrest
    rw [encode, encodeAll, encodeAll, encodeAll] at hj
    obtain ⟨js', hjs', hj⟩ := bind_eq_ok hj
    obtain ⟨a, ha, hjs'⟩ := bind_eq_ok hjs'
    obtain ⟨bs, hbs, hjs'⟩ := bind_eq_ok hjs'
    obtain ⟨b, hb, hbs⟩ := bind_eq_ok hbs
    cases hbs
    cases hjs'
    cases hj
    refine ⟨.arr [a, b] :: js, ?_, Nat.max_le.mpr ⟨hdepth, hdepths⟩⟩
    rw [encodeEntries, ha, hb, hjs]
    rfl

theorem fits_decodeNumber {text : String} {d : Datum} (h : decodeNumber text = .ok d) : Fits 0 d := by
  unfold decodeNumber at h
  dsimp only at h
  split at h
  · cases h
    exact ⟨_, by rw [encode, encodeAtom], Nat.zero_le _⟩
  · split at h
    · cases h
    · next hinf =>
      cases h
      have hnan : (numberFloat text).isNaN = false := Decimal.isNaN_read _ _ _ _
      refine ⟨.num (Decimal.compactText (numberFloat text)), ?_, Nat.zero_le _⟩
      rw [encode, encodeAtom, hnan, Bool.or_false, if_neg hinf]

theorem fits_decodeString {s : String} {d : Datum} (h : decodeString s = .ok d) : Fits 0 d := by
  unfold decodeString at h
  split at h
  · cases h
    exact ⟨_, by rw [encode, encodeAtom], Nat.zero_le _⟩
  · cases h
    exact ⟨_, by rw [encode, encodeAtom], Nat.zero_le _⟩
  · cases h

theorem mem_setOf {ds : List Datum} {d : Datum} (h : setOf ds = .ok d) :
    ∃ elems, d = .set elems ∧ ∀ e ∈ elems, e ∈ ds := by
  obtain ⟨elems, helems, hd⟩ := bind_eq_ok h
  cases hd
  refine ⟨elems, rfl, ?_⟩
  refine foldlM_invariant (P := fun acc => ∀ e ∈ acc, e ∈ ds) ?_ (by simp) helems
  intro acc d hd acc' hacc heq e he
  split at heq
  · cases heq
    rcases mem_insertElem he with rfl | he
    · exact hd
    · exact hacc e he
  · cases heq

theorem mem_dictOf {ds : List Datum} {d : Datum} (h : dictOf ds = .ok d) :
    ∃ entries, d = .dict entries ∧ ∀ e ∈ entries, .list [e.1, e.2] ∈ ds := by
  obtain ⟨entries, hentries, hd⟩ := bind_eq_ok h
  cases hd
  refine ⟨entries, rfl, ?_⟩
  refine foldlM_invariant (P := fun acc => ∀ e ∈ acc, .list [e.1, e.2] ∈ ds) ?_ (by simp) hentries
  intro acc d hd acc' hacc heq e he
  split at heq
  · split at heq
    · cases heq
      rcases mem_insert he with rfl | he
      · exact hd
      · exact hacc e he
    · cases heq
  · cases heq

theorem fits_list {level : Nat} {ds : List Datum} (h : ∀ d ∈ ds, Fits level d) :
    Fits (level + 1) (.list ds) := by
  obtain ⟨js, hjs, hdepth⟩ := encodeAll_of_fits h
  refine ⟨.arr js, ?_, Nat.succ_le_succ hdepth⟩
  rw [encode, hjs]
  rfl

theorem depth_field {name : String} {js : List Json} {level : Nat} (h : Json.depthAll js ≤ level) :
    (Json.obj [(name, .arr js)]).depth ≤ level + 2 := by
  rw [Json.depth, Json.depthFields, Json.depthFields, Nat.max_zero, Json.depth]
  omega

theorem depthAll_sortByText (js : List Json) : Json.depthAll (sortByText js) ≤ Json.depthAll js :=
  Json.depthAll_le_iff.mpr fun j hj => Json.depthAll_le_iff.mp (Nat.le_refl _) j (mem_sortByText.mp hj)

theorem fits_collection (kind : String) {level : Nat} {ds : List Datum} {d : Datum}
    (h : ∀ d ∈ ds, Fits level d) (hd : collection kind ds = .ok d) : Fits (level + 2) d := by
  unfold collection at hd
  split at hd
  · cases hd
    obtain ⟨js, hjs, hdepth⟩ := encodeAll_of_fits h
    refine ⟨.obj [("tuple", .arr js)], ?_, depth_field hdepth⟩
    rw [encode, hjs]
    rfl
  · split at hd
    · obtain ⟨elems, rfl, hmem⟩ := mem_setOf hd
      obtain ⟨js, hjs, hdepth⟩ := encodeAll_of_fits fun e he => h e (hmem e he)
      refine ⟨.obj [("set", .arr (sortByText js))], ?_,
        depth_field ((depthAll_sortByText js).trans hdepth)⟩
      rw [encode, hjs]
      rfl
    · split at hd
      · obtain ⟨entries, rfl, hmem⟩ := mem_dictOf hd
        obtain ⟨js, hjs, hdepth⟩ := encodeEntries_of_fits fun e he => h _ (hmem e he)
        refine ⟨.obj [("dict", .arr (sortByText js))], ?_,
          depth_field ((depthAll_sortByText js).trans hdepth)⟩
        rw [encode, hjs]
        rfl
      · cases hd

mutual

theorem fits_decode {j : Json} {d : Datum} (h : decodeWith decodeNumber j = .ok d) : Fits j.depth d := by
  match j with
  | .null =>
    rw [decodeWith] at h
    cases h
    exact ⟨_, by rw [encode, encodeAtom], Nat.zero_le _⟩
  | .bool b =>
    rw [decodeWith] at h
    cases h
    exact ⟨_, by rw [encode, encodeAtom], Nat.zero_le _⟩
  | .num text =>
    rw [decodeWith] at h
    exact fits_decodeNumber h
  | .str s =>
    rw [decodeWith] at h
    exact fits_decodeString h
  | .arr js =>
    rw [decodeWith] at h
    obtain ⟨ds, hds, h⟩ := bind_eq_ok h
    cases h
    exact fits_list (fits_decodeElems hds)
  | .obj fields =>
    rw [decodeWith] at h
    split at h
    · next kind elems hone =>
      obtain ⟨ds, hds, h⟩ := bind_eq_ok h
      have hmem : (kind, elems) ∈ decodeFields decodeNumber fields := mem_ofEntries (by rw [hone]; simp)
      obtain ⟨level, hlevel, hall⟩ := fits_decodeFields hmem hds
      obtain ⟨j, hj, hdepth⟩ := fits_collection _ hall h
      exact ⟨j, hj, hdepth.trans (Nat.succ_le_succ hlevel)⟩
    · cases h

theorem fits_decodeElems {js : List Json} {ds : List Datum}
    (h : decodeElems decodeNumber js = .ok ds) : ∀ d ∈ ds, Fits (Json.depthAll js) d := by
  match js with
  | [] =>
    rw [decodeElems] at h
    cases h
    simp
  | j :: js =>
    rw [decodeElems] at h
    obtain ⟨d, hd, h⟩ := bind_eq_ok h
    obtain ⟨ds, hds, h⟩ := bind_eq_ok h
    cases h
    rintro e (_ | ⟨_, he⟩)
    · obtain ⟨j', hj', hdepth⟩ := fits_decode hd
      exact ⟨j', hj', hdepth.trans (Nat.le_max_left _ _)⟩
    · obtain ⟨j', hj', hdepth⟩ := fits_decodeElems hds e he
      exact ⟨j', hj', hdepth.trans (Nat.le_max_right _ _)⟩

theorem fits_decodeFields {fields : List (String × Json)} {name : String}
    {elems : Except Reason (List Datum)} (hmem : (name, elems) ∈ decodeFields decodeNumber fields)
    {ds : List Datum} (h : elems = .ok ds) :
    ∃ level, level + 1 ≤ Json.depthFields fields ∧ ∀ d ∈ ds, Fits level d := by
  match fields with
  | [] =>
    rw [decodeFields] at hmem
    cases hmem
  | (field, j) :: fields =>
    rw [decodeFields.eq_def] at hmem
    rcases List.mem_cons.mp hmem with heq | hmem
    · obtain ⟨-, rfl⟩ := Prod.mk.inj heq
      match j with
      | .arr js => exact ⟨Json.depthAll js, Nat.le_max_left _ _, fits_decodeElems h⟩
      | .null => cases h
      | .bool _ => cases h
      | .num _ => cases h
      | .str _ => cases h
      | .obj _ => cases h
    · obtain ⟨level, hlevel, hall⟩ := fits_decodeFields hmem h
      exact ⟨level, hlevel.trans (Nat.le_max_right _ _), hall⟩

end

theorem fits_unmarshal {text : String} {d : Datum} (h : unmarshal text = .ok d) :
    Fits Json.maxDepth d := by
  unfold unmarshal at h
  split at h
  · cases h
  · next j rest hread =>
    split at h
    · cases h
    · obtain ⟨j', hj', hdepth⟩ := fits_decode h
      exact ⟨j', hj', hdepth.trans (Json.depth_of_readFirst hread)⟩

/-- Every sound datum without parts that cannot be stored has a stored text unless it is nested too deep,
and only these. If its keys are apart it is read back identical, unless it is nested too deep. Whatever is
read from a text can be stored again and, if its keys are apart, is read back identical. -/
theorem marshal_unmarshal_identical (d : Datum) :
    (d.Sound → (¬ ∃ p, PartOf p d ∧ Unstorable p) →
      ∃ j, encode d = .ok j ∧ (j.opened ≤ Json.maxDepth → marshal d = .ok j.text) ∧
        (d.KeysApart → j.depth ≤ Json.maxDepth → ∃ d', unmarshal j.text = .ok d' ∧ Identical d d')) ∧
    ((∃ r, marshal d = .error r) ↔
      (∃ p, PartOf p d ∧ Unstorable p) ∨ ∃ j, encode d = .ok j ∧ Json.maxDepth < j.opened) ∧
    (∀ text, unmarshal text = .ok d →
      ∃ text', marshal d = .ok text' ∧
        (d.KeysApart → ∃ d', unmarshal text' = .ok d' ∧ Identical d d')) := by
  refine ⟨fun hd hparts => ?_, marshal_eq_error_iff, fun text h => ?_⟩
  · obtain ⟨j, hj⟩ := encode_eq_ok hparts
    exact ⟨j, hj, marshal_eq_ok hj, fun hapart hdepth => unmarshal_text_identical hd hapart hj hdepth⟩
  · obtain ⟨j, hj, hdepth⟩ := fits_unmarshal h
    exact ⟨j.text, marshal_eq_ok hj (j.opened_le_depth.trans hdepth), fun hapart =>
      unmarshal_text_identical (sound_of_unmarshal h) hapart hj hdepth⟩

theorem fits_atom {a : Atom} {j : Json} (h : encodeAtom a = .ok j) (hdepth : j.depth = 0) :
    Fits 0 (.atom a) := ⟨j, by rw [encode, h], hdepth.le⟩

def nested : Datum := .dict [(.tuple [.int 1, .sym "a"], .set [.float 2.5])]

theorem marshal_unmarshal_identical_nested :
    ∃ text d, marshal nested = .ok text ∧ unmarshal text = .ok d ∧ Identical nested d := by
  have hkey : (Datum.tuple [.int 1, .sym "a"]).hashable = true := rfl
  have hsound : nested.Sound := by
    refine .dict ?_ ?_ ?_ <;> intro e he <;> obtain rfl := List.mem_singleton.mp he
    · exact hkey
    · exact Datum.sound_of_hashable hkey
    · exact .set (by decide) fun d hd => Datum.sound_of_hashable (by revert d; decide)
  have hapart : nested.KeysApart := by
    refine .dict (by decide +kernel) fun e he => ?_
    obtain rfl := List.mem_singleton.mp he
    exact .set (by decide +kernel)
  have hfits : Fits 5 nested := by
    have hpair {level : Nat} {d e : Datum} (hd : Fits level d) (he : Fits level e) :
        ∀ c ∈ [d, e], Fits level c := List.forall_mem_cons.mpr ⟨hd, List.forall_mem_singleton.mpr he⟩
    have hnumber : Fits 0 (.float 2.5) := by
      refine fits_atom (j := .num (Decimal.compactText 2.5)) ?_ rfl
      rw [encodeAtom, if_neg (by decide +kernel)]
    have hkey : Fits 2 (.tuple [.int 1, .sym "a"]) :=
      fits_collection "tuple" (hpair (fits_atom rfl rfl) (fits_atom rfl rfl)) rfl
    have hvalue : Fits 2 (.set [.float 2.5]) :=
      fits_collection "set" (List.forall_mem_singleton.mpr hnumber)
        (setOf_of_apart (by decide) (by decide +kernel))
    exact fits_collection "dict"
      (List.forall_mem_singleton.mpr (fits_list (hpair hkey hvalue)))
      (dictOf_of_apart [(.tuple [.int 1, .sym "a"], .set [.float 2.5])] (by decide)
        (by decide +kernel))
  obtain ⟨j, hj, hdepth⟩ := hfits
  have hstorable : ¬ ∃ p, PartOf p nested ∧ Unstorable p := by
    rintro ⟨p, hpart, hp⟩
    obtain ⟨r, hr⟩ := encode_error_of_part hpart hp
    rw [hr] at hj
    cases hj
  obtain ⟨j', hj', hmarshal, hback⟩ := (marshal_unmarshal_identical nested).1 hsound hstorable
  obtain rfl : j' = j := Except.ok.inj (hj'.symm.trans hj)
  obtain ⟨d, hd, hsame⟩ := hback hapart (hdepth.trans (by decide))
  exact ⟨_, d, hmarshal (j'.opened_le_depth.trans (hdepth.trans (by decide))), hd, hsame⟩

end Codec

end EventTally
