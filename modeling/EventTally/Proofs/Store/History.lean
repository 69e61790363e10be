import EventTally.Proofs.Store.Bucket

/-! # The laws of histories

The history of a store changes by additions and by trims. Whatever they are, the numbers of its entries go
up and none is given twice, not even after everything has been trimmed away; no two neighbours are the
same code; and each addition, trim and look does what it should (`history_laws`). A bucket that has been
through the same changes holds the same entries and answers alike.
-/

namespace EventTally

/-- A change of a history. -/
inductive HistoryChange where
  | add (code : String)
  | trim (keep : Int)

namespace Store

/-- What a change answers, and the store after it. -/
def revise (s : Store) : HistoryChange → Nat × Store
  | .add code => s.addHistory code
  | .trim keep => s.trimHistory keep

def after (s : Store) (changes : List HistoryChange) : Store :=
  changes.foldl (fun s c => (s.revise c).2) s

theorem after_append (s : Store) (cs cs' : List HistoryChange) :
    s.after (cs ++ cs') = (s.after cs).after cs' := List.foldl_append

/-- Numbers that were given to entries up to the end of the changes. -/
def Used (past : List HistoryChange) (n : Nat) : Prop :=
  ∃ earlier, earlier <+: past ∧ ∃ e ∈ (empty.after earlier).history, e.seq = n

section

variable (s : Store) (code : String)

theorem addHistory_latest {e : HistoryEntry} (he : s.history.getLast? = some e) :
    s.addHistory e.code = (e.seq, s) := by
  rw [addHistory, he]
  exact if_pos rfl

theorem addHistory_new (h : ∀ e, s.history.getLast? = some e → e.code ≠ code) :
    s.addHistory code = (s.lastSeq + 1,
      { s with history := s.history ++ [⟨s.lastSeq + 1, code⟩], lastSeq := s.lastSeq + 1 }) := by
  rw [addHistory]
  split
  · next e he => exact if_neg (h e he)
  · rfl

theorem latest_or_new : (∃ e, s.history.getLast? = some e ∧ e.code = code) ∨
    ∀ e, s.history.getLast? = some e → e.code ≠ code := by
  by_cases h : ∃ e, s.history.getLast? = some e ∧ e.code = code
  · exact .inl h
  · exact .inr fun e he hcode => h ⟨e, he, hcode⟩

end

/-- The numbers of the entries go up to the last number given, and neighbours are different. -/
structure Orderly (s : Store) : Prop where
  increasing : s.history.Pairwise (·.seq < ·.seq)
  numbered : ∀ e ∈ s.history, e.seq ≤ s.lastSeq
  different : s.history.IsChain (·.code ≠ ·.code)

theorem orderly_empty : empty.Orderly := ⟨.nil, nofun, .nil⟩

namespace Orderly

variable {s : Store} (h : s.Orderly)
include h

theorem addHistory (code : String) : (s.addHistory code).2.Orderly := by
  obtain ⟨e, he, rfl⟩ | hnew := s.latest_or_new code
  · rw [s.addHistory_latest he]
    exact h
  · rw [s.addHistory_new code hnew]
    refine ⟨?_, ?_, ?_⟩
    · refine List.pairwise_append.mpr ⟨h.increasing, List.pairwise_singleton _ _, fun e he e' he' => ?_⟩
      obtain rfl := List.mem_singleton.mp he'
      exact Nat.lt_succ_of_le (h.numbered e he)
    · intro e he
      obtain he | he := List.mem_append.mp he
      · exact Nat.le_succ_of_le (h.numbered e he)
      · obtain rfl := List.mem_singleton.mp he
        exact Nat.le_refl _
    · refine List.IsChain.append h.different (.singleton _) fun e he e' he' => ?_
      obtain rfl := Option.some.inj he'
      exact hnew e he

theorem trimHistory (keep : Int) : (s.trimHistory keep).2.Orderly where
  increasing := h.increasing.sublist (List.drop_sublist _ _)
  numbered e he := h.numbered e (List.mem_of_mem_drop he)
  different := h.different.drop _

theorem revise (c : HistoryChange) : (s.revise c).2.Orderly := by
  cases c with
  | add code => exact h.addHistory code
  | trim keep => exact h.trimHistory keep

theorem after (changes : List HistoryChange) : (s.after changes).Orderly := by
  induction changes generalizing s with
  | nil => exact h
  | cons c changes ih => exact ih (h.revise c)

theorem eq_of_seq {e e' : HistoryEntry} (he : e ∈ s.history) (he' : e' ∈ s.history)
    (hseq : e.seq = e'.seq) : e = e' := by
  obtain ⟨i, hi, rfl⟩ := List.getElem_of_mem he
  obtain ⟨j, hj, rfl⟩ := List.getElem_of_mem he'
  have hincreasing := List.pairwise_iff_getElem.mp h.increasing
  obtain hij | rfl | hij := lt_trichotomy i j
  · exact absurd hseq (hincreasing i j hi hj hij).ne
  · rfl
  · exact absurd hseq (hincreasing j i hj hi hij).ne'

end Orderly

theorem mem_history_revise {s : Store} (c : HistoryChange) {e : HistoryEntry}
    (he : e ∈ (s.revise c).2.history) : e ∈ s.history ∨ s.lastSeq < e.seq := by
  cases c with
  | add code =>
    change e ∈ (s.addHistory code).2.history at he
    obtain ⟨e', he', rfl⟩ | hnew := s.latest_or_new code
    · rw [s.addHistory_latest he'] at he
      exact .inl he
    · rw [s.addHistory_new code hnew] at he
      obtain he | he := List.mem_append.mp he
      · exact .inl he
      · obtain rfl := List.mem_singleton.mp he
        exact .inr (Nat.lt_succ_self _)
  | trim keep => exact .inl (List.mem_of_mem_drop he)

theorem lastSeq_revise_le (s : Store) (c : HistoryChange) : s.lastSeq ≤ (s.revise c).2.lastSeq ∧
    (s.revise c).2.lastSeq ≤ s.lastSeq + 1 := by
  cases c with
  | add code =>
    change s.lastSeq ≤ (s.addHistory code).2.lastSeq ∧ (s.addHistory code).2.lastSeq ≤ s.lastSeq + 1
    obtain ⟨e, he, rfl⟩ | hnew := s.latest_or_new code
    · rw [s.addHistory_latest he]
      exact ⟨Nat.le_refl _, Nat.le_succ _⟩
    · rw [s.addHistory_new code hnew]
      exact ⟨Nat.le_succ _, Nat.le_refl _⟩
  | trim keep => exact ⟨Nat.le_refl _, Nat.le_succ _⟩

theorem lastSeq_after_le (s : Store) (changes : List HistoryChange) :
    s.lastSeq ≤ (s.after changes).lastSeq ∧
      (s.after changes).lastSeq ≤ s.lastSeq + changes.length := by
  induction changes generalizing s with
  | nil => exact ⟨Nat.le_refl _, Nat.le_refl _⟩
  | cons c changes ih =>
    have hfirst := s.lastSeq_revise_le c
    have hrest := ih (s.revise c).2
    rw [List.length_cons]
    exact ⟨hfirst.1.trans hrest.1, hrest.2.trans (by omega)⟩

theorem mem_history_after {s : Store} (changes : List HistoryChange) {e : HistoryEntry}
    (he : e ∈ (s.after changes).history) : e ∈ s.history ∨ s.lastSeq < e.seq := by
  induction changes generalizing s with
  | nil => exact .inl he
  | cons c changes ih =>
    obtain he | hlt := ih he
    · exact mem_history_revise c he
    · exact .inr ((s.lastSeq_revise_le c).1.trans_lt hlt)

theorem eq_of_seq_after {past earlier : List HistoryChange} (hearlier : earlier <+: past)
    {e e' : HistoryEntry} (he : e ∈ (empty.after earlier).history)
    (he' : e' ∈ (empty.after past).history) (hseq : e.seq = e'.seq) : e = e' := by
  obtain ⟨later, rfl⟩ := hearlier
  have horderly := orderly_empty.after earlier
  rw [after_append] at he'
  obtain hold | hnew := mem_history_after later he'
  · exact horderly.eq_of_seq he hold hseq
  · have hle := horderly.numbered e he
    omega

theorem Used.le_lastSeq {past : List HistoryChange} {n : Nat} (h : Used past n) :
    n ≤ (empty.after past).lastSeq := by
  obtain ⟨earlier, ⟨later, rfl⟩, e, he, rfl⟩ := h
  rw [after_append]
  exact ((orderly_empty.after earlier).numbered e he).trans (lastSeq_after_le _ later).1

theorem trimHistory_keeps (s : Store) (keep : Int) :
    ∃ stale kept, s.history = stale ++ kept ∧
      (kept.length : Int) = min (s.history.length : Int) (max keep 0) ∧
      s.trimHistory keep = (stale.length, { s with history := kept }) := by
  refine ⟨s.history.take (s.history.length - keep.toNat), s.history.drop (s.history.length - keep.toNat),
    (List.take_append_drop _ _).symm, ?_, ?_⟩
  · rw [List.length_drop]
    omega
  · rw [List.length_take, Nat.min_eq_left (Nat.sub_le _ _)]
    rfl

theorem latest_isSuffix (s : Store) (n : Int) : s.latest n <:+ s.history ∧
    ((s.latest n).length : Int) = if n ≤ 0 then (s.history.length : Int) else min n s.history.length := by
  unfold latest
  split
  · exact ⟨List.suffix_refl _, rfl⟩
  · refine ⟨List.drop_suffix _ _, ?_⟩
    rw [List.length_drop]
    omega

end Store

namespace Bucket

def revise (b : Bucket) : HistoryChange → Nat × Bucket
  | .add code => b.addHistory code
  | .trim keep => b.trimHistory keep

def after (b : Bucket) (changes : List HistoryChange) : Bucket :=
  changes.foldl (fun b c => (b.revise c).2) b

/-- The entries of the bucket are those of the history, under the keys of their numbers. -/
structure Holds (b : Bucket) (s : Store) : Prop where
  entries : b.entries = s.history.map HistoryEntry.stored
  counter : b.counter.toNat = s.lastSeq

theorem holds_empty : empty.Holds .empty := ⟨rfl, rfl⟩

namespace Holds

variable {b : Bucket} {s : Store} (h : b.Holds s)
include h

theorem lastSeq_lt : s.lastSeq < 2 ^ 64 := h.counter ▸ b.counter.toNat_lt

variable (hs : s.Orderly)
include hs

theorem seq_lt {e : HistoryEntry} (he : e ∈ s.history) : e.seq < 2 ^ 64 :=
  (hs.numbered e he).trans_lt h.lastSeq_lt

theorem number_stored {e : HistoryEntry} (he : e ∈ s.history) : e.stored.1.number = e.seq :=
  Key.number_ofNumber (h.seq_lt hs he)

theorem map_number : b.entries.map (fun e => { seq := e.1.number, code := e.2 }) = s.history := by
  rw [h.entries, List.map_map]
  conv_rhs => rw [← List.map_id s.history]
  refine List.map_congr_left fun e he => ?_
  rw [Function.comp_apply, h.number_stored hs he]
  rfl

theorem addHistory (hroom : s.lastSeq + 1 < 2 ^ 64) (code : String) :
    (b.addHistory code).1 = (s.addHistory code).1 ∧ (b.addHistory code).2.Holds (s.addHistory code).2 := by
  have hlast : b.entries.getLast? = s.history.getLast?.map HistoryEntry.stored := by
    rw [h.entries, List.getLast?_map]
  obtain ⟨e, he, rfl⟩ | hnew := s.latest_or_new code
  · have hmem := List.mem_of_getLast? he
    have hfound : b.addHistory e.code = (e.seq, b) := by
      rw [Bucket.addHistory, hlast, he]
      refine (if_pos rfl).trans ?_
      rw [Key.number_ofNumber (h.seq_lt hs hmem)]
    rw [hfound, s.addHistory_latest he]
    exact ⟨rfl, h⟩
  · have happend : b.addHistory code = addHistory.append b code := by
      rw [Bucket.addHistory, hlast]
      cases he : s.history.getLast? with
      | none => rfl
      | some e => exact if_neg (hnew e he)
    have hseq : (b.counter + 1).toNat = s.lastSeq + 1 := by
      rw [UInt64.toNat_add, h.counter]
      exact Nat.mod_eq_of_lt hroom
    -- The new key comes after all others.
    have hput : put (.ofNumber (s.lastSeq + 1)) code b.entries =
        List.map HistoryEntry.stored (s.history ++ [⟨s.lastSeq + 1, code⟩]) := by
      rw [put_eq_append, h.entries, List.map_append]
      · rfl
      · rw [h.entries]
        intro e he
        obtain ⟨e, hmem, rfl⟩ := List.mem_map.mp he
        refine (Key.ofNumber_lt_iff (h.seq_lt hs hmem) hroom).mpr ?_
        exact Nat.lt_succ_of_le (hs.numbered e hmem)
    rw [happend, s.addHistory_new code hnew, addHistory.append, hseq, hput]
    exact ⟨rfl, rfl, hseq⟩

theorem trimHistory (keep : Int) :
    (b.trimHistory keep).1 = (s.trimHistory keep).1 ∧
      (b.trimHistory keep).2.Holds (s.trimHistory keep).2 := by
  -- The keys that are found walking back are those of the entries at the front.
  have hstale : (pass keep 0 b.entries.reverse).map (·.1) =
      ((b.entries.take (s.history.length - keep.toNat)).map (·.1)).reverse := by
    rw [pass_eq_drop, List.drop_reverse, ← List.map_reverse, h.entries, List.length_map, Int.sub_zero]
  have hapart : b.entries.Pairwise fun e e' => e.1 ≠ e'.1 := by
    rw [h.entries, List.pairwise_map]
    refine hs.increasing.imp_of_mem fun {e e'} he he' hlt heq => ?_
    have hkeys := (Key.ofNumber_lt_iff (h.seq_lt hs he) (h.seq_lt hs he')).mpr hlt
    change Key.ofNumber e.seq = Key.ofNumber e'.seq at heq
    rw [heq] at hkeys
    exact List.lt_irrefl _ hkeys
  have hleft : ((pass keep 0 b.entries.reverse).map (·.1)).foldl delete b.entries =
      (s.history.drop (s.history.length - keep.toNat)).map HistoryEntry.stored := by
    rw [foldl_delete, hstale]
    simp only [List.mem_reverse]
    rw [filter_notMem_take hapart, h.entries, List.map_drop]
  refine ⟨?_, hleft, h.counter⟩
  change ((pass keep 0 b.entries.reverse).map (·.1)).length = s.history.length - keep.toNat
  rw [hstale, List.length_reverse, List.length_map, List.length_take, h.entries, List.length_map]
  exact Nat.min_eq_left (Nat.sub_le _ _)

theorem latest (n : Int) : b.latest n = s.latest n := by
  unfold Bucket.latest Store.latest
  split
  · next hn =>
    rw [collect_of_nonpos hn, List.nil_append, List.map_reverse, List.reverse_reverse, h.map_number hs]
  · next hn =>
    rw [collect_of_pos (Int.not_le.mp hn), List.nil_append, List.map_reverse, h.map_number hs,
      List.take_reverse, List.reverse_reverse]
    rfl

theorem revise (hroom : s.lastSeq + 1 < 2 ^ 64) (c : HistoryChange) :
    (b.revise c).1 = (s.revise c).1 ∧ (b.revise c).2.Holds (s.revise c).2 := by
  cases c with
  | add code => exact h.addHistory hs hroom code
  | trim keep => exact h.trimHistory hs keep

theorem after {changes : List HistoryChange} (hroom : s.lastSeq + changes.length < 2 ^ 64) :
    (b.after changes).Holds (s.after changes) := by
  induction changes generalizing b s with
  | nil => exact h
  | cons c changes ih =>
    rw [List.length_cons] at hroom
    have hfirst := (h.revise hs (by omega) c).2
    have hle := (s.lastSeq_revise_le c).2
    have hroom' : (s.revise c).2.lastSeq + changes.length < 2 ^ 64 := by omega
    exact ih hfirst (hs.revise c) hroom'

end Holds

end Bucket

namespace Store

/-- **The laws of histories.** After any changes of an empty history: the numbers go up, neighbours are
different, and an entry whose number an earlier entry has is that entry. Code other than that of the latest
entry is added under a number above all that were ever given, and code equal to it changes nothing and gets
its number. A trim removes all but the latest entries and answers how many it removed, and a look finds the
latest entries. A bucket that has been through the changes holds the history and answers whatever comes next
in the same way. -/
theorem history_laws (past : List HistoryChange) :
    let s := empty.after past
    s.history.Pairwise (·.seq < ·.seq) ∧ s.history.IsChain (·.code ≠ ·.code) ∧
    (∀ earlier, earlier <+: past → ∀ e ∈ (empty.after earlier).history, ∀ e' ∈ s.history,
      e.seq = e'.seq → e = e') ∧
    (∀ code, (∀ e, s.history.getLast? = some e → e.code ≠ code) →
      ∃ n, (∀ m, Used past m → m < n) ∧
        s.addHistory code = (n, { s with history := s.history ++ [⟨n, code⟩], lastSeq := n })) ∧
    (∀ e, s.history.getLast? = some e → s.addHistory e.code = (e.seq, s)) ∧
    (∀ keep, ∃ stale kept, s.history = stale ++ kept ∧
      (kept.length : Int) = min (s.history.length : Int) (max keep 0) ∧
      s.trimHistory keep = (stale.length, { s with history := kept })) ∧
    (∀ n, s.latest n <:+ s.history ∧
      ((s.latest n).length : Int) = if n ≤ 0 then (s.history.length : Int) else min n s.history.length) ∧
    (past.length + 1 < 2 ^ 63 →
      (Bucket.empty.after past).Holds s ∧
      (∀ c, ((Bucket.empty.after past).revise c).1 = (s.revise c).1) ∧
      ∀ n, (Bucket.empty.after past).latest n = s.latest n) := by
  intro s
  have horderly : s.Orderly := orderly_empty.after past
  refine ⟨horderly.increasing, horderly.different, ?_, ?_, ?_, ?_, ?_, ?_⟩
  · exact fun earlier hearlier e he e' he' => eq_of_seq_after hearlier he he'
  · exact fun code hnew => ⟨s.lastSeq + 1, fun m hm => Nat.lt_succ_of_le hm.le_lastSeq,
      s.addHistory_new code hnew⟩
  · exact fun e he => s.addHistory_latest he
  · exact s.trimHistory_keeps
  · exact s.latest_isSuffix
  · intro hroom
    have hle : s.lastSeq ≤ 0 + past.length := (lastSeq_after_le empty past).2
    have hholds : (Bucket.empty.after past).Holds s := by
      refine Bucket.holds_empty.after orderly_empty ?_
      change 0 + past.length < 2 ^ 64
      omega
    exact ⟨hholds, fun c => (hholds.revise horderly (by omega) c).1, hholds.latest horderly⟩

/-- The history is emptied between two additions of one code. -/
theorem history_laws_emptied :
    let past : List HistoryChange := [.add "x", .add "x", .add "y", .trim (-1), .add "x"]
    empty.after past = { empty with history := [⟨3, "x"⟩], lastSeq := 3 } ∧ past.length + 1 < 2 ^ 63 ∧
    (∀ e ∈ (empty.after [.add "x", .add "x", .add "y"]).history, ∀ e' ∈ (empty.after past).history,
      e.seq = e'.seq → e = e') ∧
    (∃ n, (∀ m, Used past m → m < n) ∧ ((empty.after past).addHistory "y").1 = n) ∧
    ((Bucket.empty.after past).revise (.add "x")).1 = 3 := by
  intro past
  have hafter : empty.after past = { empty with history := [⟨3, "x"⟩], lastSeq := 3 } := rfl
  obtain ⟨-, -, hunique, hadd, -, -, -, hbucket⟩ := history_laws past
  have hroom : past.length + 1 < 2 ^ 63 := by decide
  obtain ⟨n, hn, hnew⟩ := hadd "y" (by simp [hafter])
  refine ⟨hafter, hroom, hunique _ (List.prefix_append _ [HistoryChange.trim (-1), .add "x"]), ?_, ?_⟩
  · exact ⟨n, hn, by rw [hnew]⟩
  · rw [(hbucket hroom).2.1, hafter]
    rfl

end Store

end EventTally
