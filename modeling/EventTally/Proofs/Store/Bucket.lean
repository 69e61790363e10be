import EventTally.Store.Basic
import Mathlib.Algebra.Group.Nat.Defs
import Mathlib.Data.List.Chain
import Mathlib.Data.Nat.Basic
import Mathlib.Order.Basic

/-! # Histories in buckets

On disk a history is kept in a bucket: a map from keys to texts, walked in the order of the bytes of its
keys, with a counter that only goes up. The key of an entry is its number in eight bytes. Entries are added
under the next number, and what is read or removed is found by walking back from the last key.

The order of the keys is that of the numbers (`Key.ofNumber_lt_iff`), so a bucket and a store whose history
it holds answer alike and stay together, as long as the numbers fit into the keys.
-/

namespace EventTally

/-- A string of bytes. Keys come in the order of their bytes. -/
abbrev Key := List UInt8

namespace Key

/-- The last bytes of a number, the most significant first. -/
def bytes : Nat → Nat → Key
  | 0, _ => []
  | width + 1, n => UInt8.ofNat (n / 256 ^ width) :: bytes width (n % 256 ^ width)

def ofNumber (n : Nat) : Key := bytes 8 n

/-- The number that bytes stand for, the most significant first. -/
def number : Key → Nat
  | [] => 0
  | b :: bs => b.toNat * 256 ^ bs.length + number bs

theorem length_bytes (width n : Nat) : (bytes width n).length = width := by
  induction width generalizing n with
  | zero => rfl
  | succ width ih => rw [bytes, List.length_cons, ih]

theorem toNat_first {width n : Nat} (h : n < 256 ^ (width + 1)) :
    (UInt8.ofNat (n / 256 ^ width)).toNat = n / 256 ^ width := by
  rw [UInt8.toNat_ofNat']
  refine Nat.mod_eq_of_lt (Nat.div_lt_of_lt_mul ?_)
  rwa [Nat.pow_succ] at h

theorem number_bytes {width n : Nat} (h : n < 256 ^ width) : (bytes width n).number = n := by
  induction width generalizing n with
  | zero =>
    rw [Nat.pow_zero, Nat.lt_one_iff] at h
    rw [h, bytes, number]
  | succ width ih =>
    have hrest : n % 256 ^ width < 256 ^ width := Nat.mod_lt _ (Nat.pow_pos (by decide))
    rw [bytes, number, length_bytes, ih hrest, toNat_first h]
    exact Nat.div_add_mod' n _

theorem bytes_lt_iff {width n m : Nat} (hn : n < 256 ^ width) (hm : m < 256 ^ width) :
    bytes width n < bytes width m ↔ n < m := by
  induction width generalizing n m with
  | zero =>
    rw [Nat.pow_zero, Nat.lt_one_iff] at hn hm
    subst hn hm
    exact ⟨fun h => absurd h (List.lt_irrefl _), fun h => absurd h (Nat.lt_irrefl _)⟩
  | succ width ih =>
    have hpos : 0 < 256 ^ width := Nat.pow_pos (by decide)
    have hrest := ih (Nat.mod_lt n hpos) (Nat.mod_lt m hpos)
    have hn' := Nat.div_add_mod n (256 ^ width)
    have hm' := Nat.div_add_mod m (256 ^ width)
    rw [bytes, bytes, List.cons_lt_cons_iff, hrest, UInt8.lt_iff_toNat_lt, ← UInt8.toNat_inj,
      toNat_first hn, toNat_first hm]
    constructor
    · rintro (hlt | ⟨heq, hlt⟩)
      · exact Nat.lt_of_div_lt_div hlt
      · rw [heq] at hn'
        omega
    · intro hlt
      obtain hdiv | hdiv := Nat.lt_or_eq_of_le (Nat.div_le_div_right (c := 256 ^ width) hlt.le)
      · exact .inl hdiv
      · rw [hdiv] at hn'
        exact .inr ⟨hdiv, by omega⟩

theorem number_ofNumber {n : Nat} (h : n < 2 ^ 64) : (ofNumber n).number = n := number_bytes h

theorem ofNumber_lt_iff {n m : Nat} (hn : n < 2 ^ 64) (hm : m < 2 ^ 64) :
    ofNumber n < ofNumber m ↔ n < m := bytes_lt_iff hn hm

end Key

def HistoryEntry.stored (e : HistoryEntry) : Key × String := (Key.ofNumber e.seq, e.code)

structure Bucket where
  /-- The texts under their keys, in the order of the keys. -/
  entries : List (Key × String)
  counter : UInt64

namespace Bucket

def empty : Bucket := { entries := [], counter := 0 }

def put (k : Key) (text : String) : List (Key × String) → List (Key × String)
  | [] => [(k, text)]
  | e :: es =>
    if k < e.1 then (k, text) :: e :: es
    else if e.1 < k then e :: put k text es
    else (k, text) :: es

def delete (es : List (Key × String)) (k : Key) : List (Key × String) := es.filter (·.1 ≠ k)

/-- Code is put under the next number, unless it is that of the last entry. -/
def addHistory (b : Bucket) (code : String) : Nat × Bucket :=
  match b.entries.getLast? with
  | some (k, text) => if text = code then (k.number, b) else append
  | none => append
where
  append : Nat × Bucket :=
    let seq := b.counter + 1
    (seq.toNat, { entries := put (.ofNumber seq.toNat) code b.entries, counter := seq })

/-- Collects entries until there are `n`, if that is positive. -/
def collect (n : Int) (found : List HistoryEntry) : List (Key × String) → List HistoryEntry
  | [] => found
  | (k, code) :: es =>
    if n ≤ 0 ∨ (found.length : Int) < n then collect n (found ++ [{ seq := k.number, code }]) es
    else found

/-- The latest entries are collected from the last one back. -/
def latest (b : Bucket) (n : Int) : List HistoryEntry := (collect n [] b.entries.reverse).reverse

/-- What is left after `keep` entries, of which `i` have been passed. -/
def pass (keep i : Int) : List (Key × String) → List (Key × String)
  | [] => []
  | e :: es => if i < keep then pass keep (i + 1) es else e :: es

/-- The keys of all but the latest entries are found first, and then they are deleted. -/
def trimHistory (b : Bucket) (keep : Int) : Nat × Bucket :=
  let stale := (pass keep 0 b.entries.reverse).map (·.1)
  (stale.length, { b with entries := stale.foldl delete b.entries })

theorem put_eq_append {k : Key} (text : String) {es : List (Key × String)} (h : ∀ e ∈ es, e.1 < k) :
    put k text es = es ++ [(k, text)] := by
  induction es with
  | nil => rfl
  | cons e es ih =>
    obtain ⟨he, hes⟩ := List.forall_mem_cons.mp h
    rw [put, if_neg (List.lt_asymm he), if_pos he, ih hes]
    rfl

theorem collect_of_nonpos {n : Int} (hn : n ≤ 0) (found : List HistoryEntry) (es : List (Key × String)) :
    collect n found es = found ++ es.map fun e => { seq := e.1.number, code := e.2 } := by
  induction es generalizing found with
  | nil => exact (List.append_nil found).symm
  | cons e es ih =>
    rw [collect, if_pos (.inl hn), ih, List.append_assoc]
    rfl

theorem collect_of_pos {n : Int} (hn : 0 < n) (found : List HistoryEntry) (es : List (Key × String)) :
    collect n found es =
      found ++ (es.map fun e => { seq := e.1.number, code := e.2 }).take (n.toNat - found.length) := by
  induction es generalizing found with
  | nil => simp [collect]
  | cons e es ih =>
    rw [collect]
    split
    · next hroom =>
      have hcount : n.toNat - found.length = n.toNat - (found.length + 1) + 1 := by omega
      rw [ih, hcount, List.map_cons, List.take_succ_cons, List.append_assoc, List.length_append]
      rfl
    · next hfull =>
      have hcount : n.toNat - found.length = 0 := by omega
      rw [hcount, List.take_zero, List.append_nil]

theorem pass_eq_drop (keep i : Int) (es : List (Key × String)) :
    pass keep i es = es.drop (keep - i).toNat := by
  induction es generalizing i with
  | nil => exact List.drop_nil.symm
  | cons e es ih =>
    rw [pass]
    split
    · next hlt =>
      have hcount : (keep - i).toNat = (keep - (i + 1)).toNat + 1 := by omega
      rw [ih, hcount, List.drop_succ_cons]
    · next hge =>
      have hcount : (keep - i).toNat = 0 := by omega
      rw [hcount, List.drop_zero]

theorem foldl_delete (ks : List Key) (es : List (Key × String)) :
    ks.foldl delete es = es.filter (·.1 ∉ ks) := by
  induction ks generalizing es with
  | nil => simp
  | cons k ks ih =>
    rw [List.foldl_cons, ih, delete, List.filter_filter]
    refine List.filter_congr fun e _ => ?_
    simp [Bool.and_comm]

theorem filter_notMem_take {es : List (Key × String)} (h : es.Pairwise fun e e' => e.1 ≠ e'.1) (n : Nat) :
    es.filter (·.1 ∉ (es.take n).map (·.1)) = es.drop n := by
  have hapart : ∀ e ∈ es.drop n, e.1 ∉ (es.take n).map (·.1) := by
    intro e he hmem
    obtain ⟨e', he', heq⟩ := List.mem_map.mp hmem
    rw [← List.take_append_drop n es] at h
    exact (List.pairwise_append.mp h).2.2 e' he' e he heq
  conv_lhs => rw [← List.take_append_drop n es, List.filter_append]
  rw [List.take_append_drop, List.filter_eq_nil_iff.mpr, List.nil_append, List.filter_eq_self]
  · exact fun e he => decide_eq_true (hapart e he)
  · intro e he hnot
    exact of_decide_eq_true hnot (List.mem_map_of_mem he)

end Bucket

end EventTally
