import EventTally.Eval.Lazy
import EventTally.Proofs.Renaming.Operations

/-! # Comparing images

Comparing values, or encoding one, goes through their images in the same way: it ends there if it ends
here, and with the same result. The order in which dicts and sets are gone through is the same too.
-/

namespace EventTally

namespace Renaming

variable {ρ : Renaming}

theorem equal_key (hκ : Function.Injective ρ.closures) (v w : Value) :
    (ρ.value v).key.equal (ρ.value w).key = v.key.equal w.key := by
  rw [key_value, key_value, Datum.equal_rename hκ]

theorem order_key (hκ : Function.Injective ρ.closures) (v w : Value) :
    (ρ.value v).key.order (ρ.value w).key = v.key.order w.key := by
  rw [key_value, key_value, Datum.order_rename hκ]

theorem encode_key (v : Value) : Codec.encode (ρ.value v).key = Codec.encode v.key := by
  rw [key_value, Datum.encode_rename]

mutual

theorem equalBy_value {same same' : Ref → Ref → Option Bool} (hκ : Function.Injective ρ.closures)
    (hsame : ∀ a b, same' (ρ.ref a) (ρ.ref b) = same a b) (v w : Value) :
    (ρ.value v).equalBy same' (ρ.value w) = v.equalBy same w := by
  have hkey := congrArg some (equal_key hκ v w)
  match v, w with
  | .tuple vs, .tuple ws =>
    rw [value_tuple, value_tuple, Value.equalBy, Value.equalBy, List.length_map, List.length_map,
      equalAllBy_values hκ hsame vs ws]
  | .list a, .list b => exact hsame (.list a) (.list b)
  | .dict a, .dict b => exact hsame (.dict a) (.dict b)
  | .set a, .set b => exact hsame (.set a) (.set b)
  | .atom _, _ | .builtin _, _ | .closure _, _ => exact hkey
  | .tuple _, .atom _ | .tuple _, .list _ | .tuple _, .dict _ | .tuple _, .set _ | .tuple _, .builtin _
  | .tuple _, .closure _ => exact hkey
  | .list _, .atom _ | .list _, .tuple _ | .list _, .dict _ | .list _, .set _ | .list _, .builtin _
  | .list _, .closure _ => exact hkey
  | .dict _, .atom _ | .dict _, .tuple _ | .dict _, .list _ | .dict _, .set _ | .dict _, .builtin _
  | .dict _, .closure _ => exact hkey
  | .set _, .atom _ | .set _, .tuple _ | .set _, .list _ | .set _, .dict _ | .set _, .builtin _
  | .set _, .closure _ => exact hkey

theorem equalAllBy_values {same same' : Ref → Ref → Option Bool} (hκ : Function.Injective ρ.closures)
    (hsame : ∀ a b, same' (ρ.ref a) (ρ.ref b) = same a b) (vs ws : List Value) :
    Value.equalAllBy same' (vs.map ρ.value) (ws.map ρ.value) = Value.equalAllBy same vs ws := by
  match vs, ws with
  | [], _ | _ :: _, [] => rfl
  | v :: vs, w :: ws =>
    rw [List.map_cons, List.map_cons, Value.equalAllBy, Value.equalAllBy, equalBy_value hκ hsame v w,
      equalAllBy_values hκ hsame vs ws]

end

mutual

theorem orderBy_value {same same' : Ref → Ref → Option Bool}
    {order order' : ListRef → ListRef → Option (Except Datum.Incomparable Ordering)}
    (hκ : Function.Injective ρ.closures) (hsame : ∀ a b, same' (ρ.ref a) (ρ.ref b) = same a b)
    (horder : ∀ a b, order' (ρ.list a) (ρ.list b) = order a b) (v w : Value) :
    (ρ.value v).orderBy same' order' (ρ.value w) = v.orderBy same order w := by
  have hkey := congrArg some (order_key hκ v w)
  match v, w with
  | .tuple vs, .tuple ws =>
    rw [value_tuple, value_tuple, Value.orderBy, Value.orderBy, orderAllBy_values hκ hsame horder vs ws]
  | .list a, .list b => exact horder a b
  | .atom _, _ | .builtin _, _ | .closure _, _ | .dict _, _ | .set _, _ => exact hkey
  | .tuple _, .atom _ | .tuple _, .list _ | .tuple _, .dict _ | .tuple _, .set _ | .tuple _, .builtin _
  | .tuple _, .closure _ => exact hkey
  | .list _, .atom _ | .list _, .tuple _ | .list _, .dict _ | .list _, .set _ | .list _, .builtin _
  | .list _, .closure _ => exact hkey

theorem orderAllBy_values {same same' : Ref → Ref → Option Bool}
    {order order' : ListRef → ListRef → Option (Except Datum.Incomparable Ordering)}
    (hκ : Function.Injective ρ.closures) (hsame : ∀ a b, same' (ρ.ref a) (ρ.ref b) = same a b)
    (horder : ∀ a b, order' (ρ.list a) (ρ.list b) = order a b) (vs ws : List Value) :
    Value.orderAllBy same' order' (vs.map ρ.value) (ws.map ρ.value) =
      Value.orderAllBy same order vs ws := by
  match vs, ws with
  | [], [] | _ :: _, [] | [], _ :: _ =>
    unfold Value.orderAllBy
    simp
  | v :: vs, w :: ws =>
    rw [List.map_cons, List.map_cons, Value.orderAllBy, Value.orderAllBy, equalBy_value hκ hsame v w,
      orderAllBy_values hκ hsame horder vs ws, orderBy_value hκ hsame horder v w]

end

mutual

theorem encodableBy_value {ask ask' : Ref → Option (Except Reason Unit)}
    (hask : ∀ r, ask' (ρ.ref r) = ask r) (v : Value) :
    (ρ.value v).encodableBy ask' = v.encodableBy ask := by
  match v with
  | .tuple vs => rw [value_tuple, Value.encodableBy, Value.encodableBy, allEncodableBy_values hask vs]
  | .list r => exact hask (.list r)
  | .dict r => exact hask (.dict r)
  | .set r => exact hask (.set r)
  | .atom _ | .builtin _ | .closure _ => exact congrArg some (congrArg (Except.map _) (encode_key _))

theorem allEncodableBy_values {ask ask' : Ref → Option (Except Reason Unit)}
    (hask : ∀ r, ask' (ρ.ref r) = ask r) (vs : List Value) :
    Value.allEncodableBy ask' (vs.map ρ.value) = Value.allEncodableBy ask vs := by
  match vs with
  | [] => rfl
  | v :: vs =>
    rw [List.map_cons, Value.allEncodableBy, Value.allEncodableBy, encodableBy_value hask v,
      allEncodableBy_values hask vs]

end

end Renaming

theorem List.allM_map {α β : Type} (f : α → β) (p : β → Option Bool) (as : List α) :
    (as.map f).allM p = as.allM (p ∘ f) := by
  induction as with
  | nil => rfl
  | cons a as ih => rw [List.map_cons, List.allM, List.allM, ih, Function.comp_apply]

theorem List.anyM_map {α β : Type} (f : α → β) (p : β → Option Bool) (as : List α) :
    (as.map f).anyM p = as.anyM (p ∘ f) := by
  induction as with
  | nil => rfl
  | cons a as ih => rw [List.map_cons, List.anyM, List.anyM, ih, Function.comp_apply]

namespace Heap.Image

variable {ρ : Renaming} {final old h h' : Heap} (himage : Image ρ final old h h')
include himage

theorem equalRefs (depth : Nat) (a b : Ref) :
    h'.equalRefs depth (ρ.ref a) (ρ.ref b) = h.equalRefs depth a b := by
  induction depth generalizing a b with
  | zero => rfl
  | succ depth ih =>
    have hequal := Renaming.equalBy_value himage.injective ih
    match a, b with
    | .list a, .list b =>
      have helems := hequal (.tuple (h.elems a)) (.tuple (h.elems b))
      rw [Renaming.value_tuple, Renaming.value_tuple] at helems
      rw [Renaming.ref, Renaming.ref, Heap.equalRefs, Heap.equalRefs, himage.elems, himage.elems, helems]
    | .dict a, .dict b =>
      rw [Renaming.ref, Renaming.ref, Heap.equalRefs, Heap.equalRefs, himage.entries, himage.entries,
        List.length_map, List.length_map, himage.sortEntries (m := ρ.entry) fun _ => rfl, List.allM_map]
      refine if_congr Iff.rfl (congrArg (List.allM · _) (funext fun ⟨k, v⟩ => ?_)) rfl
      dsimp only [Function.comp_apply, Renaming.entry]
      rw [himage.findEntry]
      cases h.findEntry (h.entries b) k with
      | none => rfl
      | some w => exact hequal v w
    | .set a, .set b =>
      rw [Renaming.ref, Renaming.ref, Heap.equalRefs, Heap.equalRefs, himage.members, himage.members,
        List.length_map, List.length_map, List.all_map]
      simp only [Function.comp_def, himage.anySameKey]
    | .closure _, _ => rfl
    | .list _, .dict _ | .list _, .set _ | .list _, .closure _ => rfl
    | .dict _, .list _ | .dict _, .set _ | .dict _, .closure _ => rfl
    | .set _, .list _ | .set _, .dict _ | .set _, .closure _ => rfl

theorem orderLists (depth : Nat) (a b : ListRef) :
    h'.orderLists depth (ρ.list a) (ρ.list b) = h.orderLists depth a b := by
  induction depth generalizing a b with
  | zero => rfl
  | succ depth ih =>
    rw [Heap.orderLists, Heap.orderLists, himage.elems, himage.elems]
    exact Renaming.orderAllBy_values himage.injective (himage.equalRefs depth) ih _ _

theorem contents (r : Ref) : h'.contents (ρ.ref r) = (h.contents r).map ρ.value := by
  cases r with
  | list r => exact himage.elems r
  | set r => rw [Renaming.ref, Heap.contents, Heap.contents, himage.members, himage.sortMembers]
  | closure r => rfl
  | dict r =>
    rw [Renaming.ref, Heap.contents, Heap.contents, himage.entries,
      himage.sortEntries (m := ρ.entry) fun _ => rfl, List.flatMap_map, List.map_flatMap]
    rfl

theorem encodableRef (depth : Nat) (r : Ref) :
    h'.encodableRef depth (ρ.ref r) = h.encodableRef depth r := by
  induction depth generalizing r with
  | zero => rfl
  | succ depth ih =>
    rw [Heap.encodableRef, Heap.encodableRef, himage.contents]
    exact Renaming.allEncodableBy_values ih _

theorem equal? (v w : Value) : h'.equal? (ρ.value v) (ρ.value w) = h.equal? v w := by
  unfold Heap.equal?
  rw [himage.isFinite, himage.isFinite, himage.equal,
    Renaming.equalBy_value himage.injective (himage.equalRefs maxWalk)]

theorem order? (v w : Value) : h'.order? (ρ.value v) (ρ.value w) = h.order? v w := by
  unfold Heap.order?
  rw [himage.isFinite, himage.isFinite, himage.datum, himage.datum, Datum.order_rename himage.injective,
    Renaming.orderBy_value himage.injective (himage.equalRefs maxWalk) (himage.orderLists maxWalk)]

theorem relate? (rel : Relation) (v w : Value) :
    h'.relate? rel (ρ.value v) (ρ.value w) = h.relate? rel v w := by
  unfold Heap.relate?
  rw [himage.equal?, himage.order?]

theorem encode? (v : Value) : h'.encode? (ρ.value v) = h.encode? v := by
  unfold Heap.encode?
  rw [himage.isFinite, himage.datum, Datum.encode_rename,
    Renaming.encodableBy_value (himage.encodableRef maxWalk)]

theorem contains (col elem : Value) :
    EvalM.contains h' (ρ.value col) (ρ.value elem) = EvalM.contains h col elem := by
  have htest : (fun v => h'.equal? v (ρ.value elem)) ∘ ρ.value = fun v => h.equal? v elem :=
    funext fun v => himage.equal? v elem
  have hany (elems : List Value) :
      ((elems.map ρ.value).anyM (h'.equal? · (ρ.value elem))).map Except.ok =
        (elems.anyM (h.equal? · elem)).map (Except.ok : Bool → Except Reason Bool) := by
    rw [List.anyM_map, htest]
  cases col with
  | dict r =>
    rw [Renaming.value, EvalM.contains, EvalM.contains, himage.entries, himage.findEntry,
      Option.isSome_map]
  | set r => rw [Renaming.value, EvalM.contains, EvalM.contains, himage.members, himage.anySameKey]
  | list r =>
    have helems := hany (h.elems r)
    rw [← himage.elems] at helems
    exact helems
  | tuple elems =>
    rw [Renaming.value_tuple]
    exact hany elems
  | atom a =>
    cases a with
    | str s => cases elem <;> rfl
    | _ => rfl
  | builtin | closure => rfl

end Heap.Image

end EventTally
