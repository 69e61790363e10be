import EventTally.Eval.Lazy
import EventTally.Eval.Strict
import EventTally.Proofs.Renaming.Reading

/-! # Operations on images

An operation on values has the same result on the images of the values, renamed, and fails there if it
fails.
-/

namespace EventTally

namespace Heap

theorem put_within {h h' final : Heap} {v k elem : Value} (hput : h.put v k elem = .ok h')
    (hwithin : h'.Within final) : h.Within final := by
  unfold Heap.put at hput
  split at hput
  case h_1 r =>
    cases hins : h.insertEntry k elem (h.entries r) with
    | error e =>
      rw [hins] at hput
      cases hput
    | ok es =>
      rw [hins] at hput
      cases hput
      exact hwithin.of_setEntries
  case h_2 r =>
    cases hpos : position k (h.elems r).length with
    | error e =>
      rw [hpos] at hput
      cases hput
    | ok i =>
      rw [hpos] at hput
      cases hput
      exact hwithin.of_setSlot
  case h_3 => cases hput

theorem remove_within {h final : Heap} {v k : Value} {removed : Value × Heap}
    (hremove : h.remove v k = .ok removed) (hwithin : removed.2.Within final) : h.Within final := by
  unfold Heap.remove at hremove
  split at hremove
  case h_1 r =>
    dsimp only at hremove
    split at hremove
    · cases hremove
      exact hwithin.of_setEntries
    · cases hremove
  case h_2 r =>
    obtain ⟨i, -, hremove⟩ := Codec.bind_eq_ok hremove
    cases hremove
    exact hwithin.of_removeSlot
  case h_3 => cases hremove

namespace Image

variable {ρ : Renaming} {final old h h' : Heap} (himage : Image ρ final old h h')
include himage

theorem len? (v : Value) : h'.len? (ρ.value v) = h.len? v := by
  cases v with
  | atom a => cases a <;> rfl
  | builtin b => rfl
  | closure r => rfl
  | tuple vs => rw [Renaming.value_tuple, Heap.len?, Heap.len?, List.length_map]
  | list r => rw [Renaming.value, Heap.len?, Heap.len?, himage.elems, List.length_map]
  | dict r => rw [Renaming.value, Heap.len?, Heap.len?, himage.entries, List.length_map]
  | set r => rw [Renaming.value, Heap.len?, Heap.len?, himage.members, List.length_map]

theorem truthy (v : Value) : h'.truthy (ρ.value v) = h.truthy v := by
  have hlen := himage.len? v
  cases v with
  | atom a => rfl
  | _ => exact congrArg (· != some 0) hlen

theorem injective : Function.Injective ρ.closures := himage.ordered.closures.injective

theorem equal (v w : Value) : h'.equal (ρ.value v) (ρ.value w) = h.equal v w := by
  unfold Heap.equal
  rw [himage.datum, himage.datum, Datum.equal_rename himage.injective]

theorem hashable (v : Value) : h'.hashable (ρ.value v) = h.hashable v := by
  unfold Heap.hashable
  rw [himage.datum, Datum.hashable_rename]

theorem sameKey (k l : Value) : h'.sameKey (ρ.value k) (ρ.value l) = h.sameKey k l := by
  unfold Heap.sameKey
  rw [himage.datum, himage.datum, Datum.sameKey_rename himage.injective]

theorem findEntry (es : List (Value × Value)) (k : Value) :
    h'.findEntry (es.map ρ.entry) (ρ.value k) = (h.findEntry es k).map ρ.value :=
  Keyed.find?_map (m := ρ.entry) (fun e => himage.sameKey k e.1) fun _ => rfl

theorem eraseEntry (es : List (Value × Value)) (k : Value) :
    Keyed.erase (h'.sameKey (ρ.value k)) (es.map ρ.entry) =
      (Keyed.erase (h.sameKey k) es).map ρ.entry :=
  Keyed.erase_map fun e => himage.sameKey k e.1

theorem insertEntry {α : Type} {m : Value × α → Value × α} (hm : ∀ e, (m e).1 = ρ.value e.1)
    (k : Value) (v : α) (es : List (Value × α)) :
    h'.insertEntry (ρ.value k) (m (k, v)).2 (es.map m) =
      (h.insertEntry k v es).map (List.map m) := by
  have hinsert : Keyed.insert (h'.sameKey (ρ.value k)) (m (k, v)).1 (m (k, v)).2 (es.map m) =
      (Keyed.insert (h.sameKey k) k v es).map m := by
    refine Keyed.insert_map (fun e => ?_) k v
    rw [hm, himage.sameKey]
  rw [hm] at hinsert
  unfold Heap.insertEntry
  rw [himage.hashable, Renaming.kind_value, hinsert]
  split <;> rfl

theorem insertMember (v : Value) (vs : List Value) :
    h'.insertMember (ρ.value v) (vs.map ρ.value) = (h.insertMember v vs).map (List.map ρ.value) := by
  unfold Heap.insertMember
  rw [himage.hashable, Renaming.kind_value, Keyed.insertElem_map fun w _ => himage.sameKey v w]
  split <;> rfl

theorem insertMembers (vs acc : List Value) :
    (vs.map ρ.value).foldlM (fun acc v => h'.insertMember v acc) (acc.map ρ.value) =
      (vs.foldlM (fun acc v => h.insertMember v acc) acc).map (List.map ρ.value) := by
  induction vs generalizing acc with
  | nil => rfl
  | cons v vs ih =>
    rw [List.map_cons, List.foldlM_cons, List.foldlM_cons, himage.insertMember]
    cases h.insertMember v acc with
    | error e => rfl
    | ok acc => exact ih acc

theorem anySameKey (vs : List Value) (v : Value) :
    (vs.map ρ.value).any (h'.sameKey (ρ.value v)) = vs.any (h.sameKey v) := by
  rw [List.any_map]
  exact congrArg vs.any (funext (himage.sameKey v))

theorem eraseMember (vs : List Value) (v : Value) :
    (vs.map ρ.value).eraseP (h'.sameKey (ρ.value v)) = (vs.eraseP (h.sameKey v)).map ρ.value := by
  rw [List.eraseP_map]
  exact congrArg _ (congrArg (List.eraseP · vs) (funext (himage.sameKey v)))

theorem sortEntries {α : Type} {m : Value × α → Value × α} (hm : ∀ e, (m e).1 = ρ.value e.1)
    (es : List (Value × α)) : h'.sortEntries (es.map m) = (h.sortEntries es).map m := by
  refine Keyed.ranked_map (fun e => ?_) es
  rw [hm, himage.place]

theorem sortMembers (vs : List Value) :
    h'.sortMembers (vs.map ρ.value) = (h.sortMembers vs).map ρ.value :=
  Keyed.ranked_map himage.place vs

omit himage in
theorem map_charStrings (ρ : Renaming) (s : String) : (charStrings s).map ρ.value = charStrings s := by
  unfold charStrings
  rw [List.map_map]
  rfl

theorem iterate (v : Value) :
    h'.iterate (ρ.value v) = (h.iterate v).map (List.map ρ.value) := by
  cases v with
  | atom a =>
    cases a with
    | str s => exact congrArg Except.ok (map_charStrings ρ s).symm
    | _ => rfl
  | builtin b => rfl
  | closure r => rfl
  | tuple vs =>
    rw [Renaming.value_tuple]
    rfl
  | list r => exact congrArg Except.ok (himage.elems r)
  | dict r =>
    refine congrArg Except.ok ?_
    rw [himage.entries, himage.sortEntries (m := ρ.entry) fun _ => rfl, List.map_map, List.map_map]
    refine List.map_congr_left fun e _ => ?_
    exact (Renaming.value_tuple [e.1, e.2]).symm
  | set r =>
    refine congrArg Except.ok ?_
    rw [himage.members, himage.sortMembers]

theorem loopPlaces (v : Value) :
    h'.loopPlaces (ρ.value v) = (h.loopPlaces v).map (List.map ρ.place) := by
  have hiterate : (h'.iterate (ρ.value v)).map (·.map Place.value) =
      ((h.iterate v).map (·.map Place.value)).map (List.map ρ.place) := by
    rw [himage.iterate]
    cases h.iterate v with
    | error e => rfl
    | ok vs =>
      refine congrArg Except.ok ?_
      change (vs.map ρ.value).map Place.value = (vs.map Place.value).map ρ.place
      rw [List.map_map, List.map_map]
      rfl
  cases v with
  | list r => exact congrArg Except.ok (himage.places r)
  | _ => exact hiterate

omit himage in
theorem position (ρ : Renaming) (k : Value) (n : Nat) :
    Heap.position (ρ.value k) n = Heap.position k n := by
  cases k <;> rfl

omit himage in
theorem elemAt (ρ : Renaming) (vs : List Value) (k : Value) :
    Heap.elemAt (vs.map ρ.value) (ρ.value k) = (Heap.elemAt vs k).map ρ.value := by
  unfold Heap.elemAt
  rw [position, List.length_map]
  cases Heap.position k vs.length with
  | error e => rfl
  | ok i =>
    refine congrArg Except.ok ?_
    rw [List.getElem?_map]
    cases vs[i]? <;> rfl

theorem index (v k : Value) :
    Parallel ρ.closures ρ.value (h.index v k) (h'.index (ρ.value v) (ρ.value k)) := by
  cases v with
  | atom a =>
    cases a with
    | str s =>
      refine Parallel.of_eq ?_
      have helem := elemAt ρ (charStrings s) k
      rwa [map_charStrings] at helem
    | _ => exact .same _
  | builtin b => exact .same _
  | closure r => exact .same _
  | set r => exact .same _
  | tuple vs =>
    rw [Renaming.value_tuple]
    exact Parallel.of_eq (elemAt ρ vs k)
  | list r =>
    refine Parallel.of_eq ?_
    rw [Renaming.value, Heap.index, Heap.index, himage.elems, elemAt]
  | dict r =>
    rw [Renaming.value, Heap.index, Heap.index, himage.entries, himage.findEntry]
    cases h.findEntry (h.entries r) k with
    | none =>
      dsimp only [Option.map_none]
      rw [himage.datum]
      exact .key _
    | some v => rfl

theorem hasIndex (v k : Value) : h'.hasIndex (ρ.value v) (ρ.value k) = h.hasIndex v k := by
  have hlen := himage.len? v
  cases v with
  | dict r =>
    rw [Renaming.value, Heap.hasIndex, Heap.hasIndex, himage.entries, himage.findEntry, Option.isSome_map]
  | list r =>
    rw [Renaming.value] at hlen ⊢
    unfold Heap.hasIndex
    dsimp only
    rw [hlen]
    cases k <;> rfl
  | tuple vs =>
    rw [Renaming.value_tuple] at hlen ⊢
    unfold Heap.hasIndex
    dsimp only
    rw [hlen]
    cases k <;> rfl
  | atom a => cases a <;> cases k <;> rfl
  | _ => rfl

theorem put (v k elem : Value) :
    Matched (Image ρ final old) (Reason.Alike ρ.closures) (h.put v k elem)
      (h'.put (ρ.value v) (ρ.value k) (ρ.value elem)) := by
  cases v with
  | dict r =>
    have hinsert : h'.insertEntry (ρ.value k) (ρ.value elem) ((h.entries r).map ρ.entry) = _ :=
      himage.insertEntry (m := ρ.entry) (fun _ => rfl) k elem (h.entries r)
    rw [Renaming.value, Heap.put, Heap.put, himage.entries, hinsert]
    cases h.insertEntry k elem (h.entries r) with
    | error e => exact .same e
    | ok es => exact himage.setEntries r es
  | list r =>
    rw [Renaming.value, Heap.put, Heap.put, himage.elems, List.length_map, position]
    cases Heap.position k (h.elems r).length with
    | error e => exact .same e
    | ok i => exact himage.setSlot r i elem
  | _ => exact .same _

theorem remove (v k : Value) :
    Matched (fun a b => b.1 = ρ.value a.1 ∧ Image ρ final old a.2 b.2) (Reason.Alike ρ.closures)
      (h.remove v k) (h'.remove (ρ.value v) (ρ.value k)) := by
  cases v with
  | dict r =>
    rw [Renaming.value, Heap.remove, Heap.remove, himage.entries, himage.findEntry]
    cases h.findEntry (h.entries r) k with
    | none =>
      dsimp only [Option.map_none]
      rw [himage.datum]
      exact .key _
    | some v =>
      refine ⟨rfl, ?_⟩
      rw [himage.eraseEntry]
      exact himage.setEntries r _
  | list r =>
    rw [Renaming.value, Heap.remove, Heap.remove, himage.elems, List.length_map, position]
    cases Heap.position k (h.elems r).length with
    | error e => exact .same e
    | ok i => exact ⟨himage.slot r i, himage.removeSlot r i⟩
  | _ => exact .same _

end Image

end Heap

namespace Renaming

variable {ρ : Renaming}

theorem holds_value (t : TypeTest) (v : Value) : t.holds (ρ.value v) = t.holds v := by
  cases v <;> cases t <;> rfl

theorem toFloat?_value (v : Value) : (ρ.value v).toFloat? = v.toFloat? := by
  cases v <;> rfl

theorem apply_value (op : Arith) (a b : Value) :
    op.apply (ρ.value a) (ρ.value b) = (op.apply a b).map ρ.value := by
  have hfloats : (do return .float (← op.onFloats (← (ρ.value a).toFloat?) (← (ρ.value b).toFloat?))) =
      Except.map ρ.value (do return .float (← op.onFloats (← a.toFloat?) (← b.toFloat?))) := by
    rw [toFloat?_value, toFloat?_value]
    cases a.toFloat? with
    | error e => rfl
    | ok x =>
      cases b.toFloat? with
      | error e => rfl
      | ok y =>
        change op.onFloats x y >>= _ = Except.map ρ.value (op.onFloats x y >>= _)
        cases op.onFloats x y <;> rfl
  cases a with
  | atom a =>
    cases b with
    | atom b =>
      cases a with
      | int i =>
        cases b with
        | int j =>
          cases op with
          | div => exact hfloats
          | _ => rfl
        | _ => exact hfloats
      | _ => exact hfloats
    | _ => cases a <;> exact hfloats
  | _ => exact hfloats

theorem fold_value (op : Arith) (vs : List Value) :
    op.fold (vs.map ρ.value) = (op.fold vs).map ρ.value := by
  have hfoldlM (vs : List Value) (acc : Value) :
      (vs.map ρ.value).foldlM op.apply (ρ.value acc) = (vs.foldlM op.apply acc).map ρ.value := by
    induction vs generalizing acc with
    | nil => rfl
    | cons v vs ih =>
      rw [List.map_cons, List.foldlM_cons, List.foldlM_cons, apply_value]
      cases op.apply acc v with
      | error e => rfl
      | ok acc => exact ih acc
  cases op with
  | add => exact hfoldlM vs (.int 0)
  | mul => exact hfoldlM vs (.int 1)
  | sub =>
    cases vs with
    | nil => rfl
    | cons v vs => exact hfoldlM vs v
  | div =>
    cases vs with
    | nil => rfl
    | cons v vs => exact hfoldlM vs v

theorem bound?_value (v : Value) : Slice.bound? (ρ.value v) = Slice.bound? v := by
  cases v <;> rfl

theorem select_value (n : Nat) (start stop step : Value) :
    Slice.select n (ρ.value start) (ρ.value stop) (ρ.value step) = Slice.select n start stop step := by
  unfold Slice.select
  rw [bound?_value, bound?_value, bound?_value]

theorem pick_map {α β : Type} (f : α → β) (as : List α) (ps : List Nat) :
    Slice.pick (as.map f) ps = (Slice.pick as ps).map f := by
  unfold Slice.pick
  rw [List.map_filterMap]
  exact List.filterMap_congr fun i _ => List.getElem?_map

end Renaming

end EventTally
