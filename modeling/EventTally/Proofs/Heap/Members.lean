import EventTally.Proofs.Datum.Shape
import EventTally.Proofs.Heap.Sound
import EventTally.Proofs.Keyed

/-! # Members that come in parts

The members of a set can be added one after another, or first collected into smaller sets that are then
added. That makes no difference where sameness of keys is symmetric and transitive.

Which keys are the same does not depend on the heap, since what can be a key has nothing in it that
changes.
-/

namespace EventTally

namespace Keyed

variable {κ : Type} (same : κ → κ → Bool)

/-- Adds several elements to a collection without repetitions. -/
def insertElems (acc ks : List κ) : List κ := ks.foldl (fun acc k => insertElem (same k) k acc) acc

/-- Sameness is symmetric and transitive among the elements with a property. -/
structure Coherent (P : κ → Prop) : Prop where
  symm : ∀ {a b}, P a → P b → same a b = true → same b a = true
  trans : ∀ {a b c}, P a → P b → P c → same a b = true → same b c = true → same a c = true

variable {same} {P : κ → Prop} {x y z : κ} {acc acc' ks ks' : List κ}

theorem mem_insertElem (h : z ∈ insertElem (same x) x acc) : z = x ∨ z ∈ acc := Codec.mem_insertElem h

theorem mem_insertElems (h : z ∈ insertElems same acc ks) : z ∈ acc ∨ z ∈ ks := by
  induction ks generalizing acc with
  | nil => exact .inl h
  | cons k ks ih =>
    obtain hz | hz := ih h
    · obtain rfl | hz := mem_insertElem hz
      · exact .inr List.mem_cons_self
      · exact .inl hz
    · exact .inr (List.mem_cons_of_mem _ hz)

theorem forall_insertElem (hacc : ∀ a ∈ acc, P a) (hx : P x) :
    ∀ a ∈ insertElem (same x) x acc, P a := by
  intro a ha
  obtain rfl | ha := mem_insertElem ha
  · exact hx
  · exact hacc a ha

theorem insertElems_append : insertElems same acc (ks ++ ks') =
    insertElems same (insertElems same acc ks) ks' := List.foldl_append

theorem insertElem_congr {p q : κ → Bool} (h : ∀ e ∈ acc, p e = q e) :
    insertElem p x acc = insertElem q x acc := by
  have hmap := insertElem_map (f := id) h x
  rwa [List.map_id, List.map_id] at hmap

theorem insertElems_map {κ' : Type} {same' : κ' → κ' → Bool} {f : κ → κ'}
    (hf : ∀ x ∈ ks, ∀ y ∈ ks, same' (f x) (f y) = same x y) :
    insertElems same' [] (ks.map f) = (insertElems same [] ks).map f := by
  induction ks using List.reverseRecOn with
  | nil => rfl
  | append_singleton ks k ih =>
    have hk : k ∈ ks ++ [k] := List.mem_append_right _ (List.mem_singleton_self k)
    have hks := ih fun x hx y hy => hf x (List.mem_append_left _ hx) y (List.mem_append_left _ hy)
    rw [List.map_append, insertElems_append, insertElems_append, hks]
    refine insertElem_map (fun e he => hf k hk e ?_) k
    obtain he | he := mem_insertElems he
    · cases he
    · exact List.mem_append_left _ he

theorem insertElems_congr {other : κ → κ → Bool} (h : ∀ x ∈ ks, ∀ y ∈ ks, same x y = other x y) :
    insertElems same [] ks = insertElems other [] ks := by
  have hmap := insertElems_map (f := id) h
  rwa [List.map_id, List.map_id] at hmap

/-- The elements that no later one replaces. -/
def lasting (same : κ → κ → Bool) : List κ → List κ
  | [] => []
  | k :: ks => if ks.any (same · k) then lasting same ks else k :: lasting same ks

theorem mem_of_mem_lasting (h : z ∈ lasting same ks) : z ∈ ks := by
  induction ks with
  | nil => exact h
  | cons k ks ih =>
    unfold lasting at h
    split at h
    · exact List.mem_cons_of_mem _ (ih h)
    · obtain rfl | h := List.mem_cons.mp h
      · exact List.mem_cons_self
      · exact List.mem_cons_of_mem _ (ih h)

theorem lasting_eq_self (h : ks.Pairwise fun a b => same b a = false) : lasting same ks = ks := by
  induction ks with
  | nil => rfl
  | cons k ks ih =>
    obtain ⟨hfirst, hrest⟩ := List.pairwise_cons.mp h
    have hlast : ks.any (same · k) = false := List.any_eq_false.mpr fun x hx => by simp [hfirst x hx]
    rw [lasting, hlast, ih hrest]
    rfl

namespace Coherent

variable (hsame : Coherent same P)
include hsame

theorem same_right (hx : P x) (hy : P y) (hz : P z) (h : same x y = true) :
    same x z = same y z := by
  refine Bool.eq_iff_iff.mpr ⟨fun hxz => ?_, fun hyz => hsame.trans hx hy hz h hyz⟩
  exact hsame.trans hy hx hz (hsame.symm hx hy h) hxz

theorem pairwise_insertElem (hacc : ∀ a ∈ acc, P a) (hy : P y)
    (h : acc.Pairwise fun a b => same a b = false) :
    (insertElem (same y) y acc).Pairwise fun a b => same a b = false := by
  induction acc with
  | nil => exact List.pairwise_singleton _ _
  | cons e acc ih =>
    obtain ⟨he, hacc⟩ := List.forall_mem_cons.mp hacc
    obtain ⟨hfirst, hrest⟩ := List.pairwise_cons.mp h
    unfold insertElem
    split
    · next hye =>
      refine List.pairwise_cons.mpr ⟨fun a ha => ?_, hrest⟩
      rw [hsame.same_right hy he (hacc a ha) hye]
      exact hfirst a ha
    · next hye =>
      refine List.pairwise_cons.mpr ⟨fun a ha => ?_, ih hacc hrest⟩
      obtain rfl | ha := mem_insertElem ha
      · exact Bool.eq_false_iff.mpr fun h => hye (hsame.symm he hy h)
      · exact hfirst a ha

theorem pairwise_insertElems (hacc : ∀ a ∈ acc, P a) (hks : ∀ k ∈ ks, P k)
    (h : acc.Pairwise fun a b => same a b = false) :
    (insertElems same acc ks).Pairwise fun a b => same a b = false := by
  induction ks generalizing acc with
  | nil => exact h
  | cons k ks ih =>
    obtain ⟨hk, hks⟩ := List.forall_mem_cons.mp hks
    exact ih (forall_insertElem hacc hk) hks (hsame.pairwise_insertElem hacc hk h)

theorem perm_insertElem (hacc : ∀ a ∈ acc, P a) (hx : P x)
    (h : acc.Pairwise fun a b => same a b = false) :
    (insertElem (same x) x acc).Perm (x :: acc.filter fun a => !same x a) := by
  induction acc with
  | nil => exact .refl _
  | cons e acc ih =>
    obtain ⟨he, hacc⟩ := List.forall_mem_cons.mp hacc
    obtain ⟨hfirst, hrest⟩ := List.pairwise_cons.mp h
    rw [insertElem, List.filter_cons]
    by_cases hxe : same x e = true
    · have hothers : acc.filter (fun a => !same x a) = acc := by
        refine List.filter_eq_self.mpr fun a ha => ?_
        rw [hsame.same_right hx he (hacc a ha) hxe, hfirst a ha]
        rfl
      simp [hxe, hothers]
    · simpa [hxe] using ((ih hacc hrest).cons e).trans (.swap x e _)

/-- Of the elements that are added those stay that no later one replaces, and of the others those that
none replaces. -/
theorem perm_insertElems (hacc : ∀ a ∈ acc, P a) (hks : ∀ k ∈ ks, P k)
    (h : acc.Pairwise fun a b => same a b = false) :
    (insertElems same acc ks).Perm (lasting same ks ++ acc.filter fun a => !ks.any (same · a)) := by
  induction ks generalizing acc with
  | nil => simp [insertElems, lasting]
  | cons k ks ih =>
    obtain ⟨hk, hks⟩ := List.forall_mem_cons.mp hks
    have hrest : (insertElems same (insertElem (same k) k acc) ks).Perm (lasting same ks ++
        (k :: acc.filter fun a => !same k a).filter fun a => !ks.any (same · a)) :=
      (ih (forall_insertElem hacc hk) hks (hsame.pairwise_insertElem hacc hk h)).trans
        (((hsame.perm_insertElem hacc hk h).filter _).append_left _)
    have hfilter : (acc.filter fun a => !same k a).filter (fun a => !ks.any (same · a)) =
        acc.filter fun a => !(k :: ks).any (same · a) := by
      rw [List.filter_filter]
      exact List.filter_congr fun a _ => by rw [List.any_cons, Bool.not_or, Bool.and_comm]
    refine hrest.trans ?_
    rw [List.filter_cons, hfilter, lasting]
    cases ks.any (same · k) with
    | true => exact .refl _
    | false => exact List.perm_middle

theorem exists_lasting (hks : ∀ k ∈ ks, P k) (hz : P z) (hy : y ∈ ks) (h : same y z = true) :
    ∃ x ∈ lasting same ks, same x z = true := by
  induction ks generalizing y with
  | nil => cases hy
  | cons k ks ih =>
    obtain ⟨hk, hrest⟩ := List.forall_mem_cons.mp hks
    rw [lasting]
    obtain rfl | hy := List.mem_cons.mp hy
    · split
      · next hany =>
        obtain ⟨x, hx, hxy⟩ := List.any_eq_true.mp hany
        exact ih hrest hx (hsame.trans (hrest x hx) hk hz hxy h)
      · exact ⟨y, List.mem_cons_self, h⟩
    · obtain ⟨x, hx, hxz⟩ := ih hrest hy h
      split
      · exact ⟨x, hx, hxz⟩
      · exact ⟨x, List.mem_cons_of_mem _ hx, hxz⟩

theorem pairwise_of_perm (hacc : ∀ a ∈ acc, P a) (h : acc.Pairwise fun a b => same a b = false)
    (hperm : acc'.Perm acc) : acc'.Pairwise fun a b => same a b = false ∧ same b a = false := by
  refine (hperm.pairwise_iff fun hab => hab.symm).mpr (h.imp_of_mem fun ha hb hab => ⟨hab, ?_⟩)
  exact Bool.eq_false_iff.mpr fun hba => Bool.eq_false_iff.mp hab (hsame.symm (hacc _ hb) (hacc _ ha) hba)

theorem perm_insertElems_left (hacc : ∀ a ∈ acc, P a) (hks : ∀ k ∈ ks, P k)
    (h : acc.Pairwise fun a b => same a b = false) (hperm : acc'.Perm acc) :
    (insertElems same acc' ks).Perm (insertElems same acc ks) := by
  have hacc' : ∀ a ∈ acc', P a := fun a ha => hacc a (hperm.mem_iff.mp ha)
  have happart := (hsame.pairwise_of_perm hacc h hperm).imp And.left
  exact ((hsame.perm_insertElems hacc' hks happart).trans ((hperm.filter _).append_left _)).trans
    (hsame.perm_insertElems hacc hks h).symm

theorem perm_insertElems_insertElems (hacc : ∀ a ∈ acc, P a) (hks : ∀ k ∈ ks, P k)
    (h : acc.Pairwise fun a b => same a b = false) (hperm : ks'.Perm (insertElems same [] ks)) :
    (insertElems same acc ks').Perm (insertElems same acc ks) := by
  have hlasting : ks'.Perm (lasting same ks) := by
    simpa using hperm.trans (hsame.perm_insertElems (List.forall_mem_nil _) hks .nil)
  have hks' : ∀ k ∈ ks', P k := fun k hk => hks k (mem_of_mem_lasting (hlasting.mem_iff.mp hk))
  have happart := hsame.pairwise_of_perm (fun k hk => hks' k (hperm.mem_iff.mpr hk))
    (hsame.pairwise_insertElems (List.forall_mem_nil _) hks .nil) hperm
  have hfilter : (acc.filter fun a => !ks'.any (same · a)) =
      acc.filter fun a => !ks.any (same · a) := by
    refine List.filter_congr fun a ha => ?_
    rw [Bool.not_inj_iff, Bool.eq_iff_iff, List.any_eq_true, List.any_eq_true]
    constructor
    · rintro ⟨k, hk, hka⟩
      exact ⟨k, mem_of_mem_lasting (hlasting.mem_iff.mp hk), hka⟩
    · rintro ⟨k, hk, hka⟩
      obtain ⟨x, hx, hxa⟩ := hsame.exists_lasting hks (hacc a ha) hk hka
      exact ⟨x, hlasting.mem_iff.mpr hx, hxa⟩
  have hparts := hsame.perm_insertElems hacc hks' h
  rw [lasting_eq_self (happart.imp And.right), hfilter] at hparts
  exact (hparts.trans (hlasting.append_right _)).trans (hsame.perm_insertElems hacc hks h).symm

end Coherent

/-- Some parts of a list, of elements with a property, have been made collections without repetitions
first, which come in any order. -/
inductive Condenses (same : κ → κ → Bool) (P : κ → Prop) : List κ → List κ → Prop
  | same (ks : List κ) : Condenses same P ks ks
  | append {xs xs' ys ys' : List κ} (hx : Condenses same P xs xs') (hy : Condenses same P ys ys') :
      Condenses same P (xs ++ ys) (xs' ++ ys')
  | members {ks ks' : List κ} (hks : ∀ k ∈ ks, P k) (hperm : ks'.Perm (insertElems same [] ks)) :
      Condenses same P ks ks'

namespace Condenses

variable {Q : κ → Prop} {xs xs' : List κ}

theorem mem (h : Condenses same P xs xs') : ∀ x ∈ xs', x ∈ xs := by
  induction h with
  | same => exact fun _ hx => hx
  | append _ _ ihx ihy =>
    intro x hx
    obtain hx | hx := List.mem_append.mp hx
    · exact List.mem_append_left _ (ihx x hx)
    · exact List.mem_append_right _ (ihy x hx)
  | members hks hperm =>
    intro x hx
    obtain hx | hx := mem_insertElems (hperm.mem_iff.mp hx)
    · cases hx
    · exact hx

theorem forall_iff (h : Condenses same P xs xs') : (∀ x ∈ xs', P x) ↔ ∀ x ∈ xs, P x := by
  induction h with
  | same => rfl
  | append _ _ ihx ihy => rw [List.forall_mem_append, List.forall_mem_append, ihx, ihy]
  | members hks hperm => exact iff_of_true (fun x hx => hks x ((members hks hperm).mem x hx)) hks

theorem perm_insertElems (h : Condenses same P xs xs') (hsame : Coherent same Q) (hxs : ∀ x ∈ xs, Q x)
    (hacc : ∀ a ∈ acc, Q a) (hapart : acc.Pairwise fun a b => same a b = false) :
    (insertElems same acc xs').Perm (insertElems same acc xs) := by
  induction h generalizing acc with
  | same => exact .refl _
  | @append xs xs' ys ys' hx hy ihx ihy =>
    obtain ⟨hQx, hQy⟩ := List.forall_mem_append.mp hxs
    have hQx' : ∀ x ∈ xs', Q x := fun x hx' => hQx x (hx.mem x hx')
    have hQy' : ∀ y ∈ ys', Q y := fun y hy' => hQy y (hy.mem y hy')
    have hadded : ∀ a ∈ insertElems same acc xs, Q a := fun a ha =>
      (mem_insertElems ha).elim (hacc a) (hQx a)
    have hadded' := hsame.pairwise_insertElems hacc hQx hapart
    rw [insertElems_append, insertElems_append]
    exact (hsame.perm_insertElems_left hadded hQy' hadded' (ihx hQx hacc hapart)).trans
      (ihy hQy hadded hadded')
  | members _ hperm => exact hsame.perm_insertElems_insertElems hacc hxs hapart hperm

end Condenses

end Keyed

def Lens.Tells (lens : Lens) : Prop := ∀ r, ∃ name p b, lens.closure r = .closure r.id name p b

theorem Heap.tells_lens (h : Heap) (depth : Nat) : (h.lens depth).Tells := by
  intro r
  cases depth <;> exact ⟨_, _, _, rfl⟩

namespace Value

def sameKey (v w : Value) : Bool := v.key.sameKey w.key

variable {lens lens' : Lens}

mutual

theorem hash_view (hlens : lens.Tells) (hlens' : lens'.Tells) (v : Value) (hv : v.hashable = true) :
    (v.view lens).hash = (v.view lens').hash := by
  match v with
  | .atom a => rfl
  | .builtin b => rfl
  | .tuple vs =>
    rw [hashable] at hv
    exact hashAll_views hlens hlens' _ vs hv
  | .closure r =>
    obtain ⟨_, _, _, h⟩ := hlens r
    obtain ⟨_, _, _, h'⟩ := hlens' r
    rw [view, view, h, h', Datum.hash, Datum.hash]
  | .list r | .dict r | .set r => cases hv

theorem hashAll_views (hlens : lens.Tells) (hlens' : lens'.Tells) (seed : UInt32) (vs : List Value)
    (hvs : allHashable vs = true) :
    Datum.hashAll seed (views lens vs) = Datum.hashAll seed (views lens' vs) := by
  match vs with
  | [] => rfl
  | v :: vs =>
    rw [allHashable, Bool.and_eq_true] at hvs
    rw [views, views, Datum.hashAll, Datum.hashAll, hash_view hlens hlens' v hvs.1,
      hashAll_views hlens hlens' _ vs hvs.2]

end

variable {lens₁ lens₁' : Lens}

mutual

theorem equal_view (hlens : lens.Tells) (hlens' : lens'.Tells) (hlens₁ : lens₁.Tells)
    (hlens₁' : lens₁'.Tells) (v w : Value) (hv : v.hashable = true) (hw : w.hashable = true) :
    (v.view lens).equal (w.view lens') = (v.view lens₁).equal (w.view lens₁') := by
  match v, w with
  | .tuple vs, .tuple ws =>
    rw [hashable] at hv hw
    simp only [view, Datum.equal]
    exact equalAll_views hlens hlens' hlens₁ hlens₁' vs ws hv hw
  | .closure r, .closure r' =>
    obtain ⟨_, _, _, h⟩ := hlens r
    obtain ⟨_, _, _, h'⟩ := hlens' r'
    obtain ⟨_, _, _, h₁⟩ := hlens₁ r
    obtain ⟨_, _, _, h₁'⟩ := hlens₁' r'
    rw [view, view, view, view, h, h', h₁, h₁', Datum.equal, Datum.equal]
  | .closure r, .atom _ | .closure r, .builtin _ | .closure r, .tuple _ =>
    obtain ⟨_, _, _, h⟩ := hlens r
    obtain ⟨_, _, _, h₁⟩ := hlens₁ r
    simp only [view, h, h₁, Datum.equal]
  | .atom _, .closure r | .builtin _, .closure r | .tuple _, .closure r =>
    obtain ⟨_, _, _, h⟩ := hlens' r
    obtain ⟨_, _, _, h₁⟩ := hlens₁' r
    simp only [view, h, h₁, Datum.equal]
  | .atom _, .atom _ | .builtin _, .builtin _ => rfl
  | .atom _, .builtin _ | .builtin _, .atom _ => simp only [view, Datum.equal]
  | .atom _, .tuple _ | .builtin _, .tuple _ => simp only [view, Datum.equal]
  | .tuple _, .atom _ | .tuple _, .builtin _ => simp only [view, Datum.equal]
  | .list _, _ | .dict _, _ | .set _, _ => cases hv
  | _, .list _ | _, .dict _ | _, .set _ => cases hw

theorem equalAll_views (hlens : lens.Tells) (hlens' : lens'.Tells) (hlens₁ : lens₁.Tells)
    (hlens₁' : lens₁'.Tells) (vs ws : List Value) (hvs : allHashable vs = true)
    (hws : allHashable ws = true) :
    Datum.equalAll (views lens vs) (views lens' ws) =
      Datum.equalAll (views lens₁ vs) (views lens₁' ws) := by
  match vs, ws with
  | [], [] => rfl
  | [], _ :: _ | _ :: _, [] => simp only [views, Datum.equalAll]
  | v :: vs, w :: ws =>
    rw [allHashable, Bool.and_eq_true] at hvs hws
    rw [views, views, views, views, Datum.equalAll, Datum.equalAll,
      equal_view hlens hlens' hlens₁ hlens₁' v w hvs.1 hws.1,
      equalAll_views hlens hlens' hlens₁ hlens₁' vs ws hvs.2 hws.2]

end

end Value

namespace Heap

variable (h : Heap)

theorem sameKey_eq {v w : Value} (hv : v.hashable = true) (hw : w.hashable = true) :
    h.sameKey v w = v.sameKey w := by
  have hlens (v : Value) := h.tells_lens (h.viewDepth v)
  have hkey := initial.tells_lens 0
  change (h.datum v).sameKey (h.datum w) = v.key.sameKey w.key
  rw [datum_eq_view, datum_eq_view, Datum.sameKey, Datum.sameKey, Value.key, Value.key,
    Value.equal_view (hlens v) (hlens w) hkey hkey v w hv hw, Value.hash_view (hlens v) hkey v hv,
    Value.hash_view (hlens w) hkey w hw]

theorem insertMembers_eq {vs acc : List Value} (hacc : ∀ v ∈ acc, v.hashable = true)
    (hvs : ∀ v ∈ vs, v.hashable = true) :
    vs.foldlM (fun acc v => h.insertMember v acc) acc =
      .ok (Keyed.insertElems Value.sameKey acc vs) := by
  induction vs generalizing acc with
  | nil => rfl
  | cons v vs ih =>
    obtain ⟨hv, hvs⟩ := List.forall_mem_cons.mp hvs
    have hsame : Keyed.insertElem (h.sameKey v) v acc = Keyed.insertElem v.sameKey v acc :=
      Keyed.insertElem_congr fun e he => h.sameKey_eq hv (hacc e he)
    rw [List.foldlM_cons]
    unfold insertMember
    rw [hashable_eq, if_pos hv, hsame]
    exact ih (Keyed.forall_insertElem hacc hv) hvs

theorem hashable_of_insertMembers {vs acc members : List Value}
    (hins : vs.foldlM (fun acc v => h.insertMember v acc) acc = .ok members) :
    ∀ v ∈ vs, v.hashable = true := by
  induction vs generalizing acc with
  | nil => exact List.forall_mem_nil _
  | cons v vs ih =>
    obtain ⟨acc', hfirst, hrest⟩ := Codec.bind_eq_ok hins
    exact List.forall_mem_cons.mpr ⟨(insertMember_eq_ok hfirst).1, ih hrest⟩

end Heap

end EventTally
