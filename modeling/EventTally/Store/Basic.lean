import EventTally.Codec

/-! # The store

What is kept between runs: the accumulators of tallies, by name and as encoded text, and the
history of entered code. History entries are numbered from 1 and no number is used twice.
-/

namespace EventTally

structure HistoryEntry where
  seq : Nat
  code : String
  deriving DecidableEq, Repr, Inhabited

structure Store where
  /-- The encoded accumulators. -/
  tallies : List (String × String)
  /-- The history, oldest entry first. -/
  history : List HistoryEntry
  /-- The last number given to an entry. -/
  lastSeq : Nat
  deriving DecidableEq, Repr, Inhabited

namespace Store

def empty : Store := { tallies := [], history := [], lastSeq := 0 }

def tallyText? (s : Store) (name : String) : Option String := Keyed.find? (· == name) s.tallies

def tally (s : Store) (name : String) : Except Reason Datum :=
  match s.tallyText? name with
  | none => .error .noSuchTally
  | some text => Codec.unmarshal text

def setTally (s : Store) (name : String) (d : Datum) : Except Reason Store :=
  match Codec.marshal d with
  | .error e => .error e
  | .ok text =>
    if name = "" then .error .keyRequired
    else .ok { s with tallies := Keyed.insert (· == name) name text s.tallies }

def delTally (s : Store) (name : String) : Store :=
  { s with tallies := Keyed.erase (· == name) s.tallies }

def tallyNames (s : Store) : List String := (s.tallies.map (·.1)).mergeSort (· ≤ ·)

def stored (s : Store) : List (String × String) := s.tallies.mergeSort (·.1 ≤ ·.1)

/-- Appends code to the history and gives its number. Code equal to the latest entry is not
stored again. -/
def addHistory (s : Store) (code : String) : Nat × Store :=
  match s.history.getLast? with
  | some e => if e.code = code then (e.seq, s) else append
  | none => append
where
  /-- Appends a new entry. -/
  append : Nat × Store :=
    let seq := s.lastSeq + 1
    (seq, { s with history := s.history ++ [{ seq, code }], lastSeq := seq })

/-- The latest `n` entries, oldest first; all of them if `n` is not positive. -/
def latest (s : Store) (n : Int) : List HistoryEntry :=
  if n ≤ 0 then s.history else s.history.drop (s.history.length - n.toNat)

/-- Keeps the latest entries only and says how many were removed. -/
def trimHistory (s : Store) (keep : Int) : Nat × Store :=
  let stale := s.history.length - keep.toNat
  (stale, { s with history := s.history.drop stale })

end Store

end EventTally
