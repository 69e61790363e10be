import EventTally.Keyed

/-! # Looking up what was inserted

Insertion uses one test for keys and a later look-up another. If the two tests agree on the keys of
the collection, the look-up finds the inserted value or what it found before.
-/

namespace EventTally.Keyed

variable {κ α : Type}

theorem find?_cons (same : κ → Bool) (e : κ × α) (entries : List (κ × α)) :
    find? same (e :: entries) = if same e.1 then some e.2 else find? same entries := by
  unfold find?
  rw [List.find?_cons]
  cases same e.1 <;> rfl

theorem insert_cons (same : κ → Bool) (k : κ) (v : α) (e : κ × α) (entries : List (κ × α)) :
    insert same k v (e :: entries) =
      if same e.1 then (k, v) :: entries else e :: insert same k v entries := rfl

theorem find?_insert {same other : κ → Bool} (k : κ) (v : α) {entries : List (κ × α)}
    (hsame : other k = true → ∀ e ∈ entries, other e.1 = same e.1)
    (hother : other k = false → ∀ e ∈ entries, same e.1 = true → other e.1 = false) :
    find? other (insert same k v entries) = if other k then some v else find? other entries := by
  induction entries with
  | nil => exact find?_cons other (k, v) []
  | cons e entries ih =>
    have hrest := ih (fun hk d hd => hsame hk d (by simp [hd]))
      (fun hk d hd => hother hk d (by simp [hd]))
    rw [insert_cons]
    cases hk : other k with
    | true =>
      have he := hsame hk e (by simp)
      rw [hk] at hrest
      split
      · rw [find?_cons, hk]
        rfl
      · next hne =>
        rw [find?_cons, he, if_neg hne, hrest]
        rfl
    | false =>
      rw [hk] at hrest
      split
      · next heq =>
        rw [find?_cons, find?_cons, hk, hother hk e (by simp) heq]
        rfl
      · rw [find?_cons, find?_cons, hrest]
        rfl

theorem insert_eq_append {same : κ → Bool} {k : κ} (v : α) {entries : List (κ × α)}
    (h : ∀ e ∈ entries, same e.1 = false) : insert same k v entries = entries ++ [(k, v)] := by
  induction entries with
  | nil => rfl
  | cons e entries ih =>
    obtain ⟨he, hrest⟩ := List.forall_mem_cons.mp h
    rw [insert_cons, he, ih hrest]
    rfl

theorem insertElem_eq_append {same : κ → Bool} {k : κ} {elems : List κ}
    (h : ∀ e ∈ elems, same e = false) : insertElem same k elems = elems ++ [k] := by
  induction elems with
  | nil => rfl
  | cons e elems ih =>
    obtain ⟨he, hrest⟩ := List.forall_mem_cons.mp h
    rw [insertElem, he, ih hrest]
    rfl

theorem ofEntries_of_nodup [BEq κ] [LawfulBEq κ] {entries : List (κ × α)}
    (h : (entries.map Prod.fst).Nodup) : ofEntries entries = entries := by
  have hfold : ∀ acc : List (κ × α), ((acc ++ entries).map Prod.fst).Nodup →
      entries.foldl (fun acc e => insert (· == e.1) e.1 e.2 acc) acc = acc ++ entries := by
    clear h
    induction entries with
    | nil =>
      intro acc _
      exact (List.append_nil acc).symm
    | cons e entries ih =>
      intro acc hnodup
      have hinsert : insert (· == e.1) e.1 e.2 acc = acc ++ [e] := by
        refine insert_eq_append e.2 fun e' he' => beq_eq_false_iff_ne.mpr ?_
        rw [List.map_append, List.nodup_append] at hnodup
        exact hnodup.2.2 e'.1 (List.mem_map_of_mem he') e.1 (by simp)
      rw [List.foldl_cons, hinsert, ih (acc ++ [e]), List.append_assoc]
      · rfl
      · rw [List.append_assoc]
        exact hnodup
  exact hfold [] h

section

variable {name x : String} {entries : List (String × α)}

theorem find?_insert_name (name : String) (v : α) (entries : List (String × α)) :
    find? (· == x) (insert (· == name) name v entries) =
      if name == x then some v else find? (· == x) entries := by
  refine find?_insert name v ?_ ?_
  · intro hx e _
    rw [eq_of_beq hx]
  · intro hx e _ he
    rwa [eq_of_beq he]

theorem find?_name_isSome : (find? (· == x) entries).isSome ↔ x ∈ entries.map Prod.fst := by
  unfold find?
  simp

theorem find?_erase_name (h : (entries.map Prod.fst).Nodup) :
    find? (· == x) (erase (· == name) entries) =
      if name == x then none else find? (· == x) entries := by
  induction entries with
  | nil => exact (ite_self none).symm
  | cons e entries ih =>
    obtain ⟨hnotMem, hnodup⟩ := List.nodup_cons.mp h
    rw [erase, List.eraseP_cons, find?_cons]
    cases he : e.1 == name with
    | true =>
      obtain rfl := eq_of_beq he
      rw [cond_true]
      split
      · next hx =>
        rw [← Option.not_isSome_iff_eq_none, find?_name_isSome, ← eq_of_beq hx]
        exact hnotMem
      · rfl
    | false =>
      rw [cond_false, find?_cons]
      split
      · next hx =>
        rw [← eq_of_beq hx, if_neg fun hname => beq_eq_false_iff_ne.mp he (eq_of_beq hname).symm]
      · exact ih hnodup

theorem nodup_insert_name (v : α) (h : (entries.map Prod.fst).Nodup) :
    ((insert (· == name) name v entries).map Prod.fst).Nodup := by
  have hmem (entries : List (String × α)) :
      ∀ x ∈ (insert (· == name) name v entries).map Prod.fst, x = name ∨ x ∈ entries.map Prod.fst := by
    intro x hx
    rw [← find?_name_isSome, find?_insert_name] at hx
    split at hx
    · next hname => exact .inl (eq_of_beq hname).symm
    · exact .inr (find?_name_isSome.mp hx)
  induction entries with
  | nil => exact List.nodup_cons.mpr ⟨List.not_mem_nil, List.nodup_nil⟩
  | cons e entries ih =>
    obtain ⟨hnotMem, hnodup⟩ := List.nodup_cons.mp h
    rw [insert_cons]
    split
    · next hname =>
      rw [eq_of_beq hname] at hnotMem
      exact List.nodup_cons.mpr ⟨hnotMem, hnodup⟩
    · next hname =>
      refine List.nodup_cons.mpr ⟨fun he => ?_, ih hnodup⟩
      obtain hname' | he := hmem entries e.1 he
      · exact hname (beq_iff_eq.mpr hname')
      · exact hnotMem he

theorem nodup_erase_name (h : (entries.map Prod.fst).Nodup) :
    ((erase (· == name) entries).map Prod.fst).Nodup :=
  h.sublist (List.eraseP_sublist.map Prod.fst)

end

section

variable {κ' α' : Type} {same : κ → Bool} {same' : κ' → Bool} {m : κ × α → κ' × α'}
  {entries : List (κ × α)} (hm : ∀ e, same' (m e).1 = same e.1)
include hm

theorem find?_map {g : α → α'} (hg : ∀ e, (m e).2 = g e.2) :
    find? same' (entries.map m) = (find? same entries).map g := by
  induction entries with
  | nil => rfl
  | cons e entries ih =>
    rw [List.map_cons, find?_cons, find?_cons, hm, hg, ih]
    split <;> rfl

theorem insert_map (k : κ) (v : α) : insert same' (m (k, v)).1 (m (k, v)).2 (entries.map m) =
    (insert same k v entries).map m := by
  induction entries with
  | nil => rfl
  | cons e entries ih =>
    rw [List.map_cons, insert_cons, insert_cons, hm, ih]
    split <;> rfl

theorem erase_map : erase same' (entries.map m) = (erase same entries).map m := by
  unfold erase
  rw [List.eraseP_map]
  exact congrArg _ (congrArg (List.eraseP · entries) (funext hm))

omit hm in
theorem insertElem_map {f : κ → κ'} {elems : List κ} (hf : ∀ e ∈ elems, same' (f e) = same e) (k : κ) :
    insertElem same' (f k) (elems.map f) = (insertElem same k elems).map f := by
  induction elems with
  | nil => rfl
  | cons e elems ih =>
    obtain ⟨he, helems⟩ := List.forall_mem_cons.mp hf
    rw [List.map_cons, insertElem, insertElem, he, ih helems]
    split <;> rfl

end

section

variable {β : Type} {rank : α → Nat}

theorem perm_insertRanked (a : α) (as : List α) : (insertRanked rank a as).Perm (a :: as) := by
  induction as with
  | nil => exact .refl _
  | cons b as ih =>
    rw [insertRanked]
    split
    · exact .refl _
    · exact (ih.cons b).trans (.swap a b as)

theorem perm_ranked (as : List α) : (ranked rank as).Perm as := by
  induction as with
  | nil => exact .refl _
  | cons a as ih => exact (perm_insertRanked a _).trans (ih.cons a)

theorem mem_ranked {a : α} {as : List α} : a ∈ ranked rank as ↔ a ∈ as := (perm_ranked as).mem_iff

theorem ranked_map {rank' : β → Nat} {m : α → β} (hm : ∀ a, rank' (m a) = rank a) (as : List α) :
    ranked rank' (as.map m) = (ranked rank as).map m := by
  have hinsert (a : α) (as : List α) :
      insertRanked rank' (m a) (as.map m) = (insertRanked rank a as).map m := by
    induction as with
    | nil => rfl
    | cons b as ih =>
      rw [List.map_cons, insertRanked, insertRanked, hm, hm, ih]
      split <;> rfl
  induction as with
  | nil => rfl
  | cons a as ih => rw [List.map_cons, ranked, ranked, ih, hinsert]

end

end EventTally.Keyed
