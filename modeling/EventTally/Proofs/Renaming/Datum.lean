import EventTally.Codec
import EventTally.Datum.Repr
import EventTally.Proofs.Datum.Shape
import EventTally.Proofs.Heap.Extends

/-! # Data with other function identities

Functions are told apart by their identities, and nothing else depends on these: if all identities in two
data are replaced by others, without making two the same, then the data are still equal or not, the same
key or not, and ordered as before, and their texts and encodings are those they had.
-/

namespace EventTally.Datum

mutual

def rename (κ : Nat → Nat) : Datum → Datum
  | .atom a => .atom a
  | .list ds => .list (renameAll κ ds)
  | .tuple ds => .tuple (renameAll κ ds)
  | .dict es => .dict (renameEntries κ es)
  | .set ds => .set (renameAll κ ds)
  | .builtin name => .builtin name
  | .closure id name pattern body => .closure (κ id) name (rename κ pattern) (rename κ body)

def renameAll (κ : Nat → Nat) : List Datum → List Datum
  | [] => []
  | d :: ds => rename κ d :: renameAll κ ds

def renameEntries (κ : Nat → Nat) : List (Datum × Datum) → List (Datum × Datum)
  | [] => []
  | (k, v) :: es => (rename κ k, rename κ v) :: renameEntries κ es

end

variable {κ : Nat → Nat}

mutual

theorem rename_id (d : Datum) : d.rename id = d := by
  match d with
  | .atom a => rfl
  | .builtin name => rfl
  | .list ds => rw [rename, renameAll_id ds]
  | .tuple ds => rw [rename, renameAll_id ds]
  | .dict es => rw [rename, renameEntries_id es]
  | .set ds => rw [rename, renameAll_id ds]
  | .closure n name p b => rw [rename, rename_id p, rename_id b, id]

theorem renameAll_id (ds : List Datum) : renameAll id ds = ds := by
  match ds with
  | [] => rfl
  | d :: ds => rw [renameAll, rename_id d, renameAll_id ds]

theorem renameEntries_id (es : List (Datum × Datum)) : renameEntries id es = es := by
  match es with
  | [] => rfl
  | (k, v) :: es => rw [renameEntries, rename_id k, rename_id v, renameEntries_id es]

end

/-- All functions in the datum have numbers below `n`. -/
def Below (n : Nat) (d : Datum) : Prop := d.rename (fun i => if i < n then i else i + 1) = d

theorem renameAll_eq_map (ds : List Datum) : renameAll κ ds = ds.map (rename κ) := by
  induction ds with
  | nil => rfl
  | cons d ds ih => rw [renameAll, ih, List.map_cons]

theorem renameEntries_eq_map (es : List (Datum × Datum)) :
    renameEntries κ es = es.map fun e => (rename κ e.1, rename κ e.2) := by
  induction es with
  | nil => rfl
  | cons e es ih => rw [renameEntries, ih, List.map_cons]

theorem hashable_rename (d : Datum) : (d.rename κ).hashable = d.hashable := by
  induction d using parts_induction with
  | tuple ds ih =>
    rw [rename, hashable, hashable, renameAll_eq_map, Bool.eq_iff_iff, allHashable_iff, allHashable_iff,
      List.forall_mem_map]
    exact forall₂_congr fun d hd => by rw [ih d hd]
  | _ => rfl

/-- Two data have hashes that differ by as much as those of the renamed data. -/
def HashesMatch (κ : Nat → Nat) (x y : Datum) : Prop :=
  hash (x.rename κ) - hash (y.rename κ) = hash x - hash y

theorem hashAll_sub {xs ys : List Datum} (h : List.Forall₂ (HashesMatch κ) xs ys) {g g' k k' : UInt32}
    (hseed : g - g' = k - k') :
    hashAll g (renameAll κ xs) - hashAll g' (renameAll κ ys) = hashAll k xs - hashAll k' ys := by
  induction h generalizing g g' k k' with
  | nil => exact hseed
  | cons hhead _ ih =>
    unfold HashesMatch at hhead
    refine ih ?_
    unfold combineHash
    grind

/-- Comparisons with the datum come out as those of the renamed data, and where they find it equal the
hashes match. -/
def Comparable (κ : Nat → Nat) (x : Datum) : Prop :=
  ∀ y, (x.rename κ).equal (y.rename κ) = x.equal y ∧ (x.equal y = true → HashesMatch κ x y)

theorem Comparable.sameKey {x : Datum} (hx : Comparable κ x) (y : Datum) :
    (x.rename κ).sameKey (y.rename κ) = x.sameKey y := by
  obtain ⟨hequal, hhash⟩ := hx y
  unfold Datum.sameKey
  rw [hequal]
  cases h : x.equal y with
  | false => rfl
  | true =>
    have hmatch : hash (x.rename κ) - hash (y.rename κ) = hash x - hash y := hhash h
    rw [Bool.true_and, Bool.true_and, Bool.eq_iff_iff, beq_iff_eq, beq_iff_eq]
    constructor
    · intro heq
      grind
    · intro heq
      grind

theorem equalAll_rename {xs : List Datum} (hxs : ∀ x ∈ xs, Comparable κ x) (ys : List Datum) :
    equalAll (renameAll κ xs) (renameAll κ ys) = equalAll xs ys := by
  induction xs generalizing ys with
  | nil => cases ys <;> simp [renameAll, equalAll]
  | cons x xs ih =>
    obtain ⟨hx, hxs⟩ := List.forall_mem_cons.mp hxs
    cases ys with
    | nil => simp [renameAll, equalAll]
    | cons y ys => rw [renameAll, renameAll, equalAll, equalAll, (hx y).1, ih hxs]

theorem hashesMatch_of_equalAll {xs ys : List Datum} (hxs : ∀ x ∈ xs, Comparable κ x)
    (h : equalAll xs ys = true) : List.Forall₂ (HashesMatch κ) xs ys := by
  rw [equalAll_iff] at h
  induction h with
  | nil => exact .nil
  | cons hequal _ ih =>
    obtain ⟨hx, hxs⟩ := List.forall_mem_cons.mp hxs
    exact .cons ((hx _).2 hequal) (ih hxs)

theorem entriesIn_rename {xs : List (Datum × Datum)} (hkeys : ∀ e ∈ xs, Comparable κ e.1)
    (hvalues : ∀ e ∈ xs, Comparable κ e.2) (ys : List (Datum × Datum)) :
    entriesIn (renameEntries κ xs) (renameEntries κ ys) = entriesIn xs ys := by
  induction xs with
  | nil => rw [renameEntries, entriesIn, entriesIn]
  | cons e xs ih =>
    obtain ⟨hkey, hkeys⟩ := List.forall_mem_cons.mp hkeys
    obtain ⟨hvalue, hvalues⟩ := List.forall_mem_cons.mp hvalues
    have hfind : (renameEntries κ ys).find? (fun e' => (e.1.rename κ).sameKey e'.1) =
        (ys.find? fun e' => e.1.sameKey e'.1).map fun e => (rename κ e.1, rename κ e.2) := by
      rw [renameEntries_eq_map, List.find?_map]
      exact congrArg _ (congrArg (List.find? · ys) (funext fun e' => hkey.sameKey e'.1))
    rw [renameEntries, entriesIn_cons, entriesIn_cons, hfind, ih hkeys hvalues]
    cases ys.find? fun e' => e.1.sameKey e'.1 with
    | none => rfl
    | some e' => exact congrArg (· && _) (hvalue e'.2).1

theorem elemsIn_rename {xs : List Datum} (hxs : ∀ x ∈ xs, Comparable κ x) (ys : List Datum) :
    elemsIn (renameAll κ xs) (renameAll κ ys) = elemsIn xs ys := by
  induction xs with
  | nil => rw [renameAll, elemsIn, elemsIn]
  | cons x xs ih =>
    obtain ⟨hx, hxs⟩ := List.forall_mem_cons.mp hxs
    rw [renameAll, elemsIn, elemsIn, ih hxs, renameAll_eq_map, List.any_map]
    exact congrArg (· && _) (congrArg (List.any ys) (funext hx.sameKey))

theorem length_renameAll (ds : List Datum) : (renameAll κ ds).length = ds.length := by
  rw [renameAll_eq_map, List.length_map]

theorem length_renameEntries (es : List (Datum × Datum)) :
    (renameEntries κ es).length = es.length := by
  rw [renameEntries_eq_map, List.length_map]

theorem comparable (hκ : Function.Injective κ) (x : Datum) : Comparable κ x := by
  induction x using parts_induction with
  | atom a =>
    intro y
    cases y with
    | atom b => exact ⟨rfl, fun _ => rfl⟩
    | _ => simp [rename, equal]
  | list xs ih =>
    intro y
    cases y with
    | list ys =>
      rw [rename, rename, equal, equal]
      exact ⟨equalAll_rename ih ys, fun _ => rfl⟩
    | _ => simp [rename, equal]
  | tuple xs ih =>
    intro y
    cases y with
    | tuple ys =>
      rw [rename, rename, equal, equal]
      exact ⟨equalAll_rename ih ys, fun h => hashAll_sub (hashesMatch_of_equalAll ih h) rfl⟩
    | _ => simp [rename, equal]
  | dict xs ih ih' =>
    intro y
    cases y with
    | dict ys =>
      refine ⟨?_, fun _ => rfl⟩
      rw [rename, rename, equal, equal, length_renameEntries, length_renameEntries,
        entriesIn_rename ih ih']
    | _ => simp [rename, equal]
  | set xs ih =>
    intro y
    cases y with
    | set ys =>
      refine ⟨?_, fun _ => rfl⟩
      rw [rename, rename, equal, equal, length_renameAll, length_renameAll, elemsIn_rename ih]
    | _ => simp [rename, equal]
  | builtin name =>
    intro y
    cases y with
    | builtin name' => exact ⟨rfl, fun _ => rfl⟩
    | _ => simp [rename, equal]
  | closure id name pattern body =>
    intro y
    cases y with
    | closure id' name' pattern' body' =>
      refine ⟨?_, fun h => ?_⟩
      · rw [rename, rename, equal, equal, Bool.eq_iff_iff, beq_iff_eq, beq_iff_eq, hκ.eq_iff]
      · rw [equal] at h
        obtain rfl := eq_of_beq h
        rw [HashesMatch, rename, rename, hash, hash, hash, hash, UInt32.sub_self, UInt32.sub_self]
    | _ => simp [rename, equal]

theorem equal_rename (hκ : Function.Injective κ) (x y : Datum) :
    (x.rename κ).equal (y.rename κ) = x.equal y :=
  (comparable hκ x y).1

theorem sameKey_rename (hκ : Function.Injective κ) (x y : Datum) :
    (x.rename κ).sameKey (y.rename κ) = x.sameKey y :=
  (comparable hκ x).sameKey y

theorem orderAll_rename (hκ : Function.Injective κ) {xs : List Datum}
    (hxs : ∀ x ∈ xs, ∀ y, (x.rename κ).order (y.rename κ) = x.order y) (ys : List Datum) :
    orderAll (renameAll κ xs) (renameAll κ ys) = orderAll xs ys := by
  induction xs generalizing ys with
  | nil => cases ys <;> simp [renameAll, orderAll]
  | cons x xs ih =>
    obtain ⟨hx, hxs⟩ := List.forall_mem_cons.mp hxs
    cases ys with
    | nil => simp [renameAll, orderAll]
    | cons y ys => rw [renameAll, renameAll, orderAll, orderAll, equal_rename hκ, hx y, ih hxs]

theorem order_rename (hκ : Function.Injective κ) (x y : Datum) :
    (x.rename κ).order (y.rename κ) = x.order y := by
  induction x using parts_induction generalizing y with
  | list xs ih =>
    cases y with
    | list ys => rw [rename, rename, order, order, orderAll_rename hκ ih]
    | _ => simp [rename, order, kind]
  | tuple xs ih =>
    cases y with
    | tuple ys => rw [rename, rename, order, order, orderAll_rename hκ ih]
    | _ => simp [rename, order, kind]
  | _ => cases y <;> simp [rename, order, kind]

theorem isTagged_rename (tag : String) (d : Datum) : isTagged tag (d.rename κ) = isTagged tag d := by
  cases d with
  | list ds =>
    match ds with
    | [] => rfl
    | .atom a :: _ => cases a <;> rfl
    | .list _ :: _ | .tuple _ :: _ | .dict _ :: _ | .set _ :: _ | .builtin _ :: _ | .closure .. :: _ => rfl
  | _ => rfl

theorem isEmptyChunk_rename (d : Datum) : isEmptyChunk (d.rename κ) = isEmptyChunk d := by
  cases d with
  | list ds =>
    match ds with
    | [] => rfl
    | [_] => rfl
    | _ :: _ :: _ => rfl
  | _ => rfl

theorem isUnquote_rename (d : Datum) : isUnquote (d.rename κ) = isUnquote d := by
  cases d with
  | list ds =>
    match ds with
    | [] => rfl
    | .atom a :: [] | .atom a :: [_] | .atom a :: _ :: _ :: _ => cases a <;> rfl
    | .list _ :: _ | .tuple _ :: _ | .dict _ :: _ | .set _ :: _ | .builtin _ :: _ | .closure .. :: _ => rfl
  | _ => rfl

theorem restCanonical_rename (tag : String) (afterChunk : Bool) (ds : List Datum) :
    canonicalSpread.restCanonical tag afterChunk (renameAll κ ds) =
      canonicalSpread.restCanonical tag afterChunk ds := by
  induction ds generalizing afterChunk with
  | nil => rfl
  | cons d ds ih =>
    rw [renameAll, canonicalSpread.restCanonical, canonicalSpread.restCanonical, isTagged_rename,
      isEmptyChunk_rename, ih, ih]

theorem canonicalSpread_rename (tag : String) (afterChunk : Bool) (ds : List Datum) :
    canonicalSpread tag afterChunk (renameAll κ ds) = canonicalSpread tag afterChunk ds := by
  induction ds generalizing afterChunk with
  | nil => rfl
  | cons d ds ih =>
    rw [renameAll, canonicalSpread, canonicalSpread, isTagged_rename, isEmptyChunk_rename, ih,
      restCanonical_rename]

theorem sugarOf_rename (ds : List Datum) : sugarOf (renameAll κ ds) = sugarOf ds := by
  have hcollection (head : String) (rest : List Datum) :
      sugarOf.collection head (renameAll κ rest) = sugarOf.collection head rest := by
    unfold sugarOf.collection
    simp only [canonicalSpread_rename]
  match ds with
  | [] => rfl
  | .atom a :: rest =>
    cases a with
    | sym head =>
      match rest with
      | [] => exact hcollection head []
      | [x] =>
        have hone : sugarOf.collection head [x.rename κ] = sugarOf.collection head [x] :=
          hcollection head [x]
        simp only [renameAll, rename, sugarOf, isUnquote_rename, hone]
      | x :: y :: rest => exact hcollection head (x :: y :: rest)
    | _ => rfl
  | .list _ :: _ | .tuple _ :: _ | .dict _ :: _ | .set _ :: _ | .builtin _ :: _ | .closure .. :: _ => rfl

/-- The texts of the datum are those of the renamed one. -/
structure SameTexts (κ : Nat → Nat) (d : Datum) : Prop where
  serialize : (d.rename κ).serialize = d.serialize
  elemTexts : (d.rename κ).elemTexts = d.elemTexts
  repr : ∀ indent, (d.rename κ).repr indent = d.repr indent

theorem texts_rename {ds : List Datum} (hds : ∀ d ∈ ds, SameTexts κ d) :
    texts (renameAll κ ds) = texts ds := by
  induction ds with
  | nil => rw [renameAll]
  | cons d ds ih =>
    obtain ⟨hd, hds⟩ := List.forall_mem_cons.mp hds
    rw [renameAll, texts, texts, hd.serialize, ih hds]

theorem innerTexts_rename {ds : List Datum} (hds : ∀ d ∈ ds, SameTexts κ d) :
    innerTexts (renameAll κ ds) = innerTexts ds := by
  induction ds with
  | nil => rw [renameAll]
  | cons d ds ih =>
    obtain ⟨hd, hds⟩ := List.forall_mem_cons.mp hds
    rw [renameAll, innerTexts, innerTexts, hd.elemTexts, ih hds]

theorem spreadTexts_rename (tag : String) {ds : List Datum} (hds : ∀ d ∈ ds, SameTexts κ d) :
    spreadTexts tag (renameAll κ ds) = spreadTexts tag ds := by
  induction ds with
  | nil => rw [renameAll]
  | cons d ds ih =>
    obtain ⟨hd, hds⟩ := List.forall_mem_cons.mp hds
    rw [renameAll, spreadTexts, spreadTexts, isTagged_rename, hd.elemTexts, hd.serialize, ih hds]

theorem reprs_rename {ds : List Datum} (hds : ∀ d ∈ ds, SameTexts κ d) (indent : Int) :
    reprs indent (renameAll κ ds) = reprs indent ds := by
  induction ds with
  | nil => rw [renameAll]
  | cons d ds ih =>
    obtain ⟨hd, hds⟩ := List.forall_mem_cons.mp hds
    rw [renameAll, reprs, reprs, hd.repr, ih hds]

theorem reprEntries_rename {es : List (Datum × Datum)} (hkeys : ∀ e ∈ es, SameTexts κ e.1)
    (hvalues : ∀ e ∈ es, SameTexts κ e.2) (indent : Int) :
    reprEntries indent (renameEntries κ es) = reprEntries indent es := by
  induction es with
  | nil => rw [renameEntries]
  | cons e es ih =>
    obtain ⟨hkey, hkeys⟩ := List.forall_mem_cons.mp hkeys
    obtain ⟨hvalue, hvalues⟩ := List.forall_mem_cons.mp hvalues
    rw [renameEntries, reprEntries, reprEntries, hkey.repr, hvalue.repr, ih hkeys hvalues]

theorem sameTexts (κ : Nat → Nat) (d : Datum) : SameTexts κ d := by
  induction d using parts_induction with
  | atom a => exact ⟨rfl, rfl, fun _ => rfl⟩
  | builtin name => exact ⟨rfl, rfl, fun _ => rfl⟩
  | list ds ih =>
    refine ⟨?_, ?_, fun indent => ?_⟩
    · rw [rename, serialize, serialize, sugarOf_rename, texts_rename ih, innerTexts_rename ih]
      simp only [spreadTexts_rename _ ih]
    · exact texts_rename ih
    · rw [rename, repr, repr, reprs_rename ih]
  | tuple ds ih =>
    refine ⟨?_, by simp only [rename, elemTexts], fun indent => ?_⟩
    · rw [rename, serialize, serialize, reprs_rename ih]
    · rw [rename, repr, repr, reprs_rename ih]
  | dict es ih ih' =>
    refine ⟨?_, by simp only [rename, elemTexts], fun indent => ?_⟩
    · rw [rename, serialize, serialize, reprEntries_rename ih ih']
    · rw [rename, repr, repr, reprEntries_rename ih ih']
  | set ds ih =>
    refine ⟨?_, by simp only [rename, elemTexts], fun indent => ?_⟩
    · rw [rename, serialize, serialize, reprs_rename ih]
    · rw [rename, repr, repr, reprs_rename ih]
  | closure id name pattern body ih ih' =>
    refine ⟨?_, by simp only [rename, elemTexts], fun indent => ?_⟩
    · rw [rename, serialize, serialize, ih.serialize, ih'.serialize]
    · rw [rename, repr, repr, ih.serialize, ih'.serialize]

theorem plain_rename (d : Datum) : (d.rename κ).plain = d.plain := (sameTexts κ d).repr noIndent

theorem display_rename (d : Datum) : (d.rename κ).display = d.display := by
  have hplain : (d.rename κ).plain = d.plain := plain_rename d
  cases d with
  | atom a => rfl
  | _ => exact hplain

theorem encode_rename (d : Datum) : Codec.encode (d.rename κ) = Codec.encode d := by
  have hall {ds : List Datum} (hds : ∀ d ∈ ds, Codec.encode (d.rename κ) = Codec.encode d) :
      Codec.encodeAll (renameAll κ ds) = Codec.encodeAll ds := by
    induction ds with
    | nil => rfl
    | cons d ds ih =>
      obtain ⟨hd, hds⟩ := List.forall_mem_cons.mp hds
      rw [renameAll, Codec.encodeAll, Codec.encodeAll, hd, ih hds]
  have hentries {es : List (Datum × Datum)}
      (hkeys : ∀ e ∈ es, Codec.encode (e.1.rename κ) = Codec.encode e.1)
      (hvalues : ∀ e ∈ es, Codec.encode (e.2.rename κ) = Codec.encode e.2) :
      Codec.encodeEntries (renameEntries κ es) = Codec.encodeEntries es := by
    induction es with
    | nil => rfl
    | cons e es ih =>
      obtain ⟨hkey, hkeys⟩ := List.forall_mem_cons.mp hkeys
      obtain ⟨hvalue, hvalues⟩ := List.forall_mem_cons.mp hvalues
      rw [renameEntries, Codec.encodeEntries, Codec.encodeEntries, hkey, hvalue, ih hkeys hvalues]
  induction d using parts_induction with
  | list ds ih => rw [rename, Codec.encode, Codec.encode, hall ih]
  | tuple ds ih => rw [rename, Codec.encode, Codec.encode, hall ih]
  | dict es ih ih' => rw [rename, Codec.encode, Codec.encode, hentries ih ih']
  | set ds ih => rw [rename, Codec.encode, Codec.encode, hall ih]
  | _ => rfl

theorem marshal_rename (d : Datum) : Codec.marshal (d.rename κ) = Codec.marshal d := by
  rw [Codec.marshal, Codec.marshal, encode_rename]

end EventTally.Datum
