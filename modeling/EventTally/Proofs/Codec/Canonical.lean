import EventTally.Proofs.Codec.Nesting

/-! # One text for one datum

Two data have the same stored text just when they are identical, dicts and sets compared as unordered
(`marshal_eq_iff_identical`). Different JSON values have different texts, at any depth, so the order in
which entries are sorted leaves no choice, and what was encoded can be told from what it was encoded as.
-/

namespace EventTally

namespace Json

theorem Proper.text_injective {i j : Json} (hi : i.Proper) (hj : j.Proper) (h : i.text = j.text) :
    i = j := by
  have hwrite : i.write = j.write := String.ofList_injective h
  have hreadi := @Proper.readsBack i hi (max i.depth j.depth) _ [] (Nat.le_max_left _ _) (Nat.le_refl _)
    ends_nil
  have hreadj := @Proper.readsBack j hj (max i.depth j.depth) _ [] (Nat.le_max_right _ _) (Nat.le_refl _)
    ends_nil
  rw [hwrite, hreadj] at hreadi
  exact (Prod.mk.inj (Option.some.inj hreadi)).1.symm

end Json

namespace Codec

open Datum (Identical)

theorem sortByText_eq_of_perm {js ks : List Json} (hjs : ∀ j ∈ js, j.Proper) (h : js.Perm ks) :
    sortByText js = sortByText ks := by
  have hsorted (is : List Json) : (sortByText is).Pairwise fun a b => a.text ≤ b.text := by
    have hpairwise : (sortByText is).Pairwise fun a b => decide (a.text ≤ b.text) = true := by
      refine List.pairwise_mergeSort (fun a b c hab hbc => ?_) (fun a b => ?_) is
      · exact decide_eq_true (String.le_trans (of_decide_eq_true hab) (of_decide_eq_true hbc))
      · rw [Bool.or_eq_true, decide_eq_true_eq, decide_eq_true_eq]
        exact String.le_total _ _
    exact hpairwise.imp fun hle => of_decide_eq_true hle
  have hperm : (sortByText js).Perm (sortByText ks) :=
    (List.mergeSort_perm js _).trans (h.trans (List.mergeSort_perm ks _).symm)
  refine hperm.eq_of_pairwise (fun a b ha hb hab hba => ?_) (hsorted js) (hsorted ks)
  have ha' := hjs a (mem_sortByText.mp ha)
  have hb' := hjs b (h.mem_iff.mpr (mem_sortByText.mp hb))
  exact ha'.text_injective hb' (String.le_antisymm hab hba)

theorem perm_of_sortByText_eq {js ks : List Json} (h : sortByText js = sortByText ks) : js.Perm ks := by
  have hjs : (sortByText js).Perm js := List.mergeSort_perm js _
  have hks : (sortByText ks).Perm ks := List.mergeSort_perm ks _
  rw [h] at hjs
  exact hjs.symm.trans hks

/-- An entry of a dict is encoded as an array of its key and its value. -/
def EncodesEntry (e : Datum × Datum) (j : Json) : Prop :=
  ∃ k v, encode e.1 = .ok k ∧ encode e.2 = .ok v ∧ j = .arr [k, v]

theorem encodeAll_eq_ok_iff {ds : List Datum} {js : List Json} :
    encodeAll ds = .ok js ↔ List.Forall₂ (fun d j => encode d = .ok j) ds js := by
  refine ⟨encodeAll_eq_ok, fun h => ?_⟩
  induction h with
  | nil => rw [encodeAll]
  | cons hd _ ih =>
    rw [encodeAll, hd, ih]
    rfl

theorem encodeEntries_eq_ok_iff {es : List (Datum × Datum)} {js : List Json} :
    encodeEntries es = .ok js ↔ List.Forall₂ EncodesEntry es js := by
  refine ⟨encodeEntries_eq_ok, fun h => ?_⟩
  induction h with
  | nil => rw [encodeEntries]
  | cons he _ ih =>
    obtain ⟨k, v, hk, hv, rfl⟩ := he
    rw [encodeEntries, hk, hv, ih]
    rfl

inductive Encoded : Datum → Json → Prop
  | atom {a : Atom} {j : Json} (h : encodeAtom a = .ok j) : Encoded (.atom a) j
  | list {ds : List Datum} {js : List Json} (h : List.Forall₂ (fun d j => encode d = .ok j) ds js) :
      Encoded (.list ds) (.arr js)
  | tuple {ds : List Datum} {js : List Json} (h : List.Forall₂ (fun d j => encode d = .ok j) ds js) :
      Encoded (.tuple ds) (.obj [("tuple", .arr js)])
  | dict {es : List (Datum × Datum)} {js : List Json} (h : List.Forall₂ EncodesEntry es js) :
      Encoded (.dict es) (.obj [("dict", .arr (sortByText js))])
  | set {ds : List Datum} {js : List Json} (h : List.Forall₂ (fun d j => encode d = .ok j) ds js) :
      Encoded (.set ds) (.obj [("set", .arr (sortByText js))])

theorem encode_eq_ok_iff {d : Datum} {j : Json} : encode d = .ok j ↔ Encoded d j := by
  constructor
  · intro h
    cases d with
    | atom a =>
      rw [encode] at h
      exact .atom h
    | list ds =>
      rw [encode] at h
      obtain ⟨js, hjs, h⟩ := bind_eq_ok h
      cases h
      exact .list (encodeAll_eq_ok hjs)
    | tuple ds =>
      rw [encode] at h
      obtain ⟨js, hjs, h⟩ := bind_eq_ok h
      cases h
      exact .tuple (encodeAll_eq_ok hjs)
    | dict es =>
      rw [encode] at h
      obtain ⟨js, hjs, h⟩ := bind_eq_ok h
      cases h
      exact .dict (encodeEntries_eq_ok hjs)
    | set ds =>
      rw [encode] at h
      obtain ⟨js, hjs, h⟩ := bind_eq_ok h
      cases h
      exact .set (encodeAll_eq_ok hjs)
    | builtin name =>
      rw [encode] at h
      cases h
    | closure id name pattern body =>
      rw [encode] at h
      cases h
  · intro h
    cases h with
    | atom h => rw [encode, h]
    | list h =>
      rw [encode, encodeAll_eq_ok_iff.mpr h]
      rfl
    | tuple h =>
      rw [encode, encodeAll_eq_ok_iff.mpr h]
      rfl
    | dict h =>
      rw [encode, encodeEntries_eq_ok_iff.mpr h]
      rfl
    | set h =>
      rw [encode, encodeAll_eq_ok_iff.mpr h]
      rfl

theorem encodeAtom_ne {a : Atom} {j : Json} (h : encodeAtom a = .ok j) :
    (∀ js, j ≠ .arr js) ∧ ∀ fields, j ≠ .obj fields := by
  cases a with
  | float f =>
    simp only [encodeAtom] at h
    split at h
    · cases h
    · cases h
      exact ⟨nofun, nofun⟩
  | _ =>
    cases h
    exact ⟨nofun, nofun⟩

theorem Encoded.of_array {d : Datum} {js : List Json} (h : Encoded d (.arr js)) :
    ∃ ds, d = .list ds ∧ List.Forall₂ (fun d j => encode d = .ok j) ds js := by
  cases h with
  | atom h => exact absurd rfl ((encodeAtom_ne h).1 js)
  | list h => exact ⟨_, rfl, h⟩

theorem Encoded.of_object {d : Datum} {name : String} {ks : List Json}
    (h : Encoded d (.obj [(name, .arr ks)])) :
    (name = "tuple" ∧ ∃ ds, d = .tuple ds ∧ List.Forall₂ (fun d j => encode d = .ok j) ds ks) ∨
    (name = "dict" ∧ ∃ es js, d = .dict es ∧ List.Forall₂ EncodesEntry es js ∧ ks = sortByText js) ∨
    (name = "set" ∧ ∃ ds js, d = .set ds ∧ List.Forall₂ (fun d j => encode d = .ok j) ds js ∧
      ks = sortByText js) := by
  cases h with
  | atom h => exact absurd rfl ((encodeAtom_ne h).2 _)
  | tuple h => exact .inl ⟨rfl, _, rfl, h⟩
  | dict h => exact .inr (.inl ⟨rfl, _, _, rfl, h, rfl⟩)
  | set h => exact .inr (.inr ⟨rfl, _, _, rfl, h, rfl⟩)

/-- Lists with the same encodings are related one by one, if every part with an encoding is determined by
it. -/
theorem zip_of_encodings {α : Type} {E : α → Json → Prop} {R : α → α → Prop} {xs ys : List α}
    {js : List Json} (hx : List.Forall₂ E xs js) (hy : List.Forall₂ E ys js)
    (h : ∀ x ∈ xs, ∀ y j, E x j → E y j → R x y) : List.Forall₂ R xs ys := by
  induction hx generalizing ys with
  | nil =>
    cases hy
    exact .nil
  | cons hxj _ ih =>
    cases hy with
    | cons hyj hys => exact .cons (h _ (by simp) _ _ hxj hyj) (ih hys fun x hx => h x (by simp [hx]))

theorem zip_of_sorted_encodings {α : Type} {E : α → Json → Prop} {R : α → α → Prop} {xs ys : List α}
    {js ks : List Json} (hx : List.Forall₂ E xs js) (hy : List.Forall₂ E ys ks)
    (hsorted : sortByText js = sortByText ks) (h : ∀ x ∈ xs, ∀ y j, E x j → E y j → R x y) :
    ∃ zs, xs.Perm zs ∧ List.Forall₂ R zs ys := by
  obtain ⟨zs, hzs, hperm⟩ := List.perm_comp_forall₂ (perm_of_sortByText_eq hsorted).symm hx.flip
  exact ⟨zs, hperm.symm, zip_of_encodings hzs.flip hy fun z hz => h z (hperm.mem_iff.mp hz)⟩

theorem identical_of_encode {d d' : Datum} {j : Json} (h : encode d = .ok j) (h' : encode d' = .ok j) :
    Identical d d' := by
  induction d using Datum.parts_induction generalizing d' j with
  | atom a =>
    have hback : decode j = .ok (.atom a) := decode_encodeAtom (by rwa [encode] at h)
    rw [encode] at h
    rw [encode_eq_ok_iff] at h'
    cases h' with
    | atom h' =>
      rw [decode_encodeAtom h'] at hback
      rw [Except.ok.inj hback]
      exact .refl _
    | list => exact absurd rfl ((encodeAtom_ne h).1 _)
    | tuple | dict | set => exact absurd rfl ((encodeAtom_ne h).2 _)
  | list ds ih =>
    obtain _ | hx | _ | _ | _ := encode_eq_ok_iff.mp h
    obtain ⟨ds', rfl, hy⟩ := (encode_eq_ok_iff.mp h').of_array
    obtain ⟨hlength, hzip⟩ := List.forall₂_iff_zip.mp (zip_of_encodings hx hy fun d hd _ _ => ih d hd)
    exact .list hlength fun p hp => hzip hp
  | tuple ds ih =>
    obtain _ | _ | hx | _ | _ := encode_eq_ok_iff.mp h
    obtain ⟨-, ds', rfl, hy⟩ | ⟨hname, -⟩ | ⟨hname, -⟩ := (encode_eq_ok_iff.mp h').of_object
    · obtain ⟨hlength, hzip⟩ := List.forall₂_iff_zip.mp (zip_of_encodings hx hy fun d hd _ _ => ih d hd)
      exact .tuple hlength fun p hp => hzip hp
    · exact absurd hname (by decide)
    · exact absurd hname (by decide)
  | dict es ih ih' =>
    obtain _ | _ | _ | hx | _ := encode_eq_ok_iff.mp h
    obtain ⟨hname, -⟩ | ⟨-, es', ks, rfl, hy, hsorted⟩ | ⟨hname, -⟩ := (encode_eq_ok_iff.mp h').of_object
    · exact absurd hname (by decide)
    · obtain ⟨zs, hperm, hzs⟩ := zip_of_sorted_encodings
        (R := fun e e' => Identical e.1 e'.1 ∧ Identical e.2 e'.2) hx hy hsorted fun e he e' j hj hj' => by
          obtain ⟨k, v, hk, hv, rfl⟩ := hj
          obtain ⟨k', v', hk', hv', heq⟩ := hj'
          obtain ⟨rfl, rfl⟩ : k = k' ∧ v = v' := by simpa using heq
          exact ⟨ih e he hk hk', ih' e he hv hv'⟩
      obtain ⟨hlength, hzip⟩ := List.forall₂_iff_zip.mp hzs
      exact .dict hperm hlength (fun p hp => (hzip hp).1) fun p hp => (hzip hp).2
    · exact absurd hname (by decide)
  | set ds ih =>
    obtain _ | _ | _ | _ | hx := encode_eq_ok_iff.mp h
    obtain ⟨hname, -⟩ | ⟨hname, -⟩ | ⟨-, ds', ks, rfl, hy, hsorted⟩ := (encode_eq_ok_iff.mp h').of_object
    · exact absurd hname (by decide)
    · exact absurd hname (by decide)
    · obtain ⟨zs, hperm, hzs⟩ := zip_of_sorted_encodings hx hy hsorted fun d hd _ _ => ih d hd
      obtain ⟨hlength, hzip⟩ := List.forall₂_iff_zip.mp hzs
      exact .set hperm hlength fun p hp => hzip hp
  | builtin name => cases encode_eq_ok_iff.mp h
  | closure id name pattern body => cases encode_eq_ok_iff.mp h

theorem encodings_of_zip {α : Type} {E : α → Json → Prop} {xs ys : List α} {js : List Json}
    (hlength : xs.length = ys.length) (h : ∀ p ∈ xs.zip ys, ∀ j, E p.1 j → E p.2 j)
    (hx : List.Forall₂ E xs js) : List.Forall₂ E ys js := by
  induction hx generalizing ys with
  | nil =>
    obtain rfl := List.length_eq_zero_iff.mp hlength.symm
    exact .nil
  | @cons x j xs js hxj _ ih =>
    cases ys with
    | nil => cases hlength
    | cons y ys =>
      rw [List.zip_cons_cons, List.forall_mem_cons] at h
      exact .cons (h.1 j hxj) (ih (Nat.succ.inj hlength) h.2)

theorem sorted_encodings_of_zip {α : Type} {E : α → Json → Prop} (hE : ∀ x j, E x j → j.Proper)
    {xs ys zs : List α} {js : List Json} (hperm : xs.Perm zs) (hlength : zs.length = ys.length)
    (h : ∀ p ∈ zs.zip ys, ∀ j, E p.1 j → E p.2 j) (hx : List.Forall₂ E xs js) :
    ∃ ks, List.Forall₂ E ys ks ∧ sortByText ks = sortByText js := by
  obtain ⟨ks, hks, hperm'⟩ := List.perm_comp_forall₂ hperm.symm hx
  refine ⟨ks, encodings_of_zip hlength h hks, ?_⟩
  refine (sortByText_eq_of_perm (fun j hj => ?_) hperm'.symm).symm
  obtain ⟨x, -, hxj⟩ := mem_right hx hj
  exact hE x j hxj

theorem encode_of_identical {d d' : Datum} {j : Json} (hsame : Identical d d') (h : encode d = .ok j) :
    encode d' = .ok j := by
  induction hsame generalizing j with
  | atom a => exact h
  | list hlength _ ih =>
    obtain _ | hx | _ | _ | _ := encode_eq_ok_iff.mp h
    exact encode_eq_ok_iff.mpr (.list (encodings_of_zip hlength (fun p hp j => ih p hp) hx))
  | tuple hlength _ ih =>
    obtain _ | _ | hx | _ | _ := encode_eq_ok_iff.mp h
    exact encode_eq_ok_iff.mpr (.tuple (encodings_of_zip hlength (fun p hp j => ih p hp) hx))
  | dict hperm hlength _ _ ih ih' =>
    obtain _ | _ | _ | hx | _ := encode_eq_ok_iff.mp h
    obtain ⟨ks, hks, hsorted⟩ := sorted_encodings_of_zip (E := EncodesEntry) (fun e j hj => by
      obtain ⟨k, v, hk, hv, rfl⟩ := hj
      exact .arr (by simp [encode_proper hk, encode_proper hv])) hperm hlength (fun p hp j hj => by
      obtain ⟨k, v, hk, hv, rfl⟩ := hj
      exact ⟨k, v, ih p hp hk, ih' p hp hv, rfl⟩) hx
    rw [← hsorted]
    exact encode_eq_ok_iff.mpr (.dict hks)
  | set hperm hlength _ ih =>
    obtain _ | _ | _ | _ | hx := encode_eq_ok_iff.mp h
    obtain ⟨ks, hks, hsorted⟩ := sorted_encodings_of_zip (fun d j hj => encode_proper hj) hperm hlength
      (fun p hp j => ih p hp) hx
    rw [← hsorted]
    exact encode_eq_ok_iff.mpr (.set hks)
  | builtin name => exact h
  | closure id name pattern body => exact h

/-- **Stored texts are canonical.** Another datum has the stored text of a datum just when the two are
identical: of the same kind and with the same scalars everywhere, dicts and sets being compared as
unordered collections. -/
theorem marshal_eq_iff_identical {v w : Datum} {text : String} (hv : marshal v = .ok text) :
    marshal w = .ok text ↔ Identical v w := by
  obtain ⟨j, hj, hopened, rfl⟩ := encode_of_marshal hv
  constructor
  · intro hw
    obtain ⟨k, hk, -, htext⟩ := encode_of_marshal hw
    obtain rfl : j = k := (encode_proper hj).text_injective (encode_proper hk) htext.symm
    exact identical_of_encode hj hk
  · intro hsame
    exact marshal_eq_ok (encode_of_identical hsame hj) hopened

def made : Datum :=
  .dict (Keyed.insert (Datum.sameKey (.str "b")) (.str "b") .null
    (Keyed.insert (Datum.sameKey (.int 1)) (.int 1) (.set [.int 2, .sym "a"]) []))

/-- The same, made by adding three entries in another order and taking one out again. -/
def remade : Datum :=
  .dict (Keyed.erase (Datum.sameKey (.int 7))
    (Keyed.insert (Datum.sameKey (.int 1)) (.int 1) (.set [.sym "a", .int 2])
      (Keyed.insert (Datum.sameKey (.int 7)) (.int 7) (.bool true)
        (Keyed.insert (Datum.sameKey (.str "b")) (.str "b") .null []))))

theorem marshal_eq_iff_identical_remade : ∃ text, marshal made = .ok text ∧ marshal remade = .ok text := by
  have hb1 : Datum.sameKey (.str "b") (.int 1) = false := by decide +kernel
  have h1b : Datum.sameKey (.int 1) (.str "b") = false := by decide +kernel
  have h7b : Datum.sameKey (.int 7) (.str "b") = false := by decide +kernel
  have h17 : Datum.sameKey (.int 1) (.int 7) = false := by decide +kernel
  have h77 : Datum.sameKey (.int 7) (.int 7) = true := by decide +kernel
  have hmade : made = .dict [(.int 1, .set [.int 2, .sym "a"]), (.str "b", .null)] := by
    simp [made, Keyed.insert, hb1]
  have hremade : remade = .dict [(.str "b", .null), (.int 1, .set [.sym "a", .int 2])] := by
    simp [remade, Keyed.insert, Keyed.erase, h1b, h7b, h17, h77]
  obtain ⟨text, htext⟩ : ∃ text, marshal made = .ok text := by
    have hset : (Json.obj [("set", .arr (sortByText [.num "2", .str "k:a"]))]).depth ≤ 0 + 2 :=
      depth_field (depthAll_sortByText _)
    have hdict : (Json.obj [("dict", .arr (sortByText [
        .arr [.num "1", .obj [("set", .arr (sortByText [.num "2", .str "k:a"]))]],
        .arr [.str "s:b", .null]]))]).depth ≤ 3 + 2 := by
      refine depth_field ((depthAll_sortByText _).trans ?_)
      simp only [Json.depthAll, Json.depth] at hset ⊢
      omega
    rw [hmade]
    exact ⟨_, marshal_eq_ok rfl ((Json.opened_le_depth _).trans (hdict.trans (by decide)))⟩
  refine ⟨text, htext, (marshal_eq_iff_identical htext).mpr ?_⟩
  rw [hmade, hremade]
  have hset : Identical (.set [.int 2, .sym "a"]) (.set [.sym "a", .int 2]) :=
    .set (.swap _ _ _) rfl (by simp [Identical.refl])
  exact .dict (.swap _ _ _) rfl (by simp [Identical.refl]) (by simp [Identical.refl, hset])

/-- A datum that is nested too deep is encoded, and is identical to itself, but has no text. -/
theorem no_text_of_deep :
    (∃ j, encode (nest (Json.maxDepth + 1)) = .ok j) ∧
      Identical (nest (Json.maxDepth + 1)) (nest (Json.maxDepth + 1)) ∧
      ¬ ∃ text, marshal (nest (Json.maxDepth + 1)) = .ok text := by
  refine ⟨⟨_, encode_nest _⟩, .refl _, ?_⟩
  rintro ⟨text, htext⟩
  rw [marshal_nest, if_neg (Nat.not_succ_le_self _)] at htext
  cases htext

end Codec

end EventTally
