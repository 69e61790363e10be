import EventTally.Proofs.Codec.RoundTrip

/-! # How deep stored texts are nested

What is nested too deep is not stored. Writing counts the arrays and objects with something in them, and
reading counts all of them, so at the limit a text can be stored that is not read back
(`marshal_nest_maxDepth`, `unmarshal_nest_maxDepth`).
-/

namespace EventTally.Codec

/-- A list in a list, and so on. The innermost one is empty. -/
def nest : Nat → Datum
  | 0 => .list []
  | n + 1 => .list [nest n]

def nestJson : Nat → Json
  | 0 => .arr []
  | n + 1 => .arr [nestJson n]

theorem encode_nest (n : Nat) : encode (nest n) = .ok (nestJson n) := by
  induction n with
  | zero => rfl
  | succ n ih =>
    rw [nest, encode, encodeAll, ih]
    rfl

theorem opened_nestJson (n : Nat) : (nestJson n).opened = n := by
  induction n with
  | zero => rfl
  | succ n ih =>
    rw [nestJson, Json.opened, Json.openedElems, ih, Nat.max_zero]

theorem marshal_nest (n : Nat) :
    marshal (nest n) = if n ≤ Json.maxDepth then .ok (nestJson n).text else .error .tooDeep := by
  rw [marshal_of_encode (encode_nest n), opened_nestJson]

theorem write_nestJson (n : Nat) :
    ∃ rest, (nestJson n).write = List.replicate (n + 1) '[' ++ rest := by
  induction n with
  | zero => exact ⟨[']'], rfl⟩
  | succ n ih =>
    obtain ⟨rest, hwrite⟩ := ih
    refine ⟨rest ++ Json.writeElems [], ?_⟩
    rw [nestJson, Json.write, hwrite, List.replicate_succ (n := n + 1)]
    simp only [List.cons_append, List.append_assoc]

theorem readValue_replicate (fuel : Nat) {depth n : Nat} (h : depth < n) (rest : List Char) :
    Json.readValue fuel depth (List.replicate n '[' ++ rest) = none := by
  induction fuel generalizing depth n with
  | zero => rw [Json.readValue]
  | succ fuel ih =>
    obtain ⟨n, rfl⟩ : ∃ m, n = m + 1 := ⟨n - 1, by omega⟩
    rw [List.replicate_succ, List.cons_append, Json.readValue.eq_def]
    cases depth with
    | zero => rfl
    | succ depth =>
      obtain ⟨n, rfl⟩ : ∃ m, n = m + 1 := ⟨n - 1, by omega⟩
      have hinner := @ih depth (n + 1) (by omega)
      rw [List.replicate_succ, List.cons_append] at hinner ⊢
      simp only [Json.skipSpace_cons (show Json.isSpace '[' = false by decide)]
      change (Json.readValue fuel depth ('[' :: (List.replicate n '[' ++ rest))).bind _ = none
      rw [hinner]
      rfl

theorem marshal_nest_maxDepth : marshal (nest Json.maxDepth) = .ok (nestJson Json.maxDepth).text := by
  rw [marshal_nest, if_pos (Nat.le_refl _)]

theorem unmarshal_nest_maxDepth : unmarshal (nestJson Json.maxDepth).text = .error .malformedJson := by
  obtain ⟨rest, hwrite⟩ := write_nestJson Json.maxDepth
  have hread : Json.readFirst (nestJson Json.maxDepth).text.toList = none := by
    rw [Json.text, String.toList_ofList, hwrite, Json.readFirst, List.replicate_succ,
      List.cons_append, Json.skipSpace_cons (by decide)]
    exact readValue_replicate _ (Nat.lt_succ_self _) rest
  rw [unmarshal, hread]

end EventTally.Codec
