/-! # Collections found by key

Lists of entries in which no two have the same key. Which keys count as the same is a parameter:
each operation takes the test for the key that it looks for.
-/

namespace EventTally.Keyed

variable {κ α : Type}

/-- The value under the key. -/
def find? (same : κ → Bool) (entries : List (κ × α)) : Option α :=
  (entries.find? fun e => same e.1).map (·.2)

/-- Adds an entry. The first entry with the same key is replaced, its key too. -/
def insert (same : κ → Bool) (k : κ) (v : α) : List (κ × α) → List (κ × α)
  | [] => [(k, v)]
  | e :: entries => if same e.1 then (k, v) :: entries else e :: insert same k v entries

def erase (same : κ → Bool) (entries : List (κ × α)) : List (κ × α) :=
  entries.eraseP fun e => same e.1

/-- Adds an element to a collection without repetitions. The first element that is the same is
replaced. -/
def insertElem (same : κ → Bool) (k : κ) : List κ → List κ
  | [] => [k]
  | e :: elems => if same e then k :: elems else e :: insertElem same k elems

def ofEntries [BEq κ] (entries : List (κ × α)) : List (κ × α) :=
  entries.foldl (fun acc e => insert (· == e.1) e.1 e.2 acc) []

/-- Adds an element to elements in the order of their ranks, before those of its own rank. -/
def insertRanked (rank : α → Nat) (a : α) : List α → List α
  | [] => [a]
  | b :: bs => if rank a ≤ rank b then a :: b :: bs else b :: insertRanked rank a bs

/-- The elements in the order of their ranks, those of one rank in the order in which they are. -/
def ranked (rank : α → Nat) : List α → List α
  | [] => []
  | a :: as => insertRanked rank a (ranked rank as)

theorem find?_nil (same : κ → Bool) : find? same ([] : List (κ × α)) = none := rfl

end EventTally.Keyed
