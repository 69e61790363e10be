import EventTally.Datum.Repr
import EventTally.Store.Update
import EventTally.Text.Quoted

/-! # The tests of stores

What every store must do, as a suite of tests, and stores with a flaw that the suite finds.
-/

namespace EventTally.Testing

/-- A test in progress: the store and the reports so far. -/
structure Trial where
  store : Store
  reports : List String
  deriving Inhabited

abbrev TrialM := StateM Trial

def report (text : String) : TrialM Unit :=
  modify fun t => { t with reports := t.reports ++ [text] }

def expect (holds : Bool) (text : String) : TrialM Unit := if holds then pure () else report text

/-- What an operation gives: a value, also in case of an error. -/
structure Reply (α : Type) where
  value : α
  error : Option String
  deriving Inhabited

def Reply.ok (value : α) : Reply α := { value, error := none }

def Reply.errorText (r : Reply α) : String := r.error.getD "<nil>"

abbrev Computation := ExceptT String TrialM Datum

structure Service where
  addHistory : String → TrialM (Reply Nat)
  history : Int → TrialM (Reply (List HistoryEntry))
  trimHistory : Int → TrialM (Reply Nat)
  tally : String → TrialM (Reply Datum)
  setTally : String → Datum → TrialM (Reply Unit)
  update : String → Computation → (Datum → Computation) → TrialM (Reply Datum)
  delTally : String → TrialM (Reply Unit)
  tallyNames : TrialM (Reply (List String))

namespace Service

def setStore (store : Store) : TrialM Unit := modify fun t => { t with store }

def workshop : Store.Workshop (ExceptT String TrialM) Datum where
  load d := pure d
  save d := pure d
  refuse r := throw r.message

def sound : Service where
  addHistory code := do
    let (seq, store) := (← get).store.addHistory code
    setStore store
    return .ok seq
  history n := do return .ok ((← get).store.latest n)
  trimHistory keep := do
    let (count, store) := (← get).store.trimHistory keep
    setStore store
    return .ok count
  tally name := do
    match (← get).store.tally name with
    | .ok d => return .ok d
    | .error r => return { value := .null, error := some r.message }
  setTally name d := do
    match (← get).store.setTally name d with
    | .ok store =>
      setStore store
      return .ok ()
    | .error r => return { value := (), error := some r.message }
  update name init f := do
    match ← ((← get).store.update workshop name init f).run with
    | .ok (d, store) =>
      setStore store
      return .ok d
    | .error e => return { value := .null, error := some e }
  delTally name := do
    setStore ((← get).store.delTally name)
    return .ok ()
  tallyNames := do return .ok (← get).store.tallyNames

end Service

inductive Flaw where
  /-- Numbers of history entries are one too large. -/
  | offByOne
  /-- Code is added three times, with a space the second time. -/
  | repeats
  | addFails
  | historyFails
  | neverTrims
  /-- A missing accumulator is null. -/
  | nullForAbsent
  /-- Accumulators become texts. -/
  | stringTally
  | setFails
  /-- Updates forget the current accumulator. -/
  | alwaysInit
  | swallowsErrors
  | delIgnored
  /-- Two names are given in the wrong order. -/
  | reversedNames
  deriving DecidableEq, Repr, Inhabited

def faulty (value : α) : Reply α := { value, error := some "faulty" }

def Flaw.apply (s : Service) : Flaw → Service
  | .offByOne =>
    { s with addHistory := fun code => do
        let r ← s.addHistory code
        return { r with value := r.value + 1 } }
  | .repeats =>
    { s with addHistory := fun code => do
        let _ ← s.addHistory code
        let r ← s.addHistory (code ++ " ")
        let _ ← s.addHistory code
        return r }
  | .addFails =>
    { s with addHistory := fun code => do
        let _ ← s.addHistory code
        return faulty 0 }
  | .historyFails => { s with history := fun _ => return faulty [] }
  | .neverTrims => { s with trimHistory := fun _ => return .ok 0 }
  | .nullForAbsent => { s with tally := fun name => return { ← s.tally name with error := none } }
  | .stringTally =>
    { s with tally := fun name => do
        let r ← s.tally name
        return if r.error.isSome then r else { r with value := .str r.value.display } }
  | .setFails => { s with setTally := fun _ _ => return faulty () }
  | .alwaysInit =>
    { s with update := fun name init f => do
        let _ ← s.delTally name
        s.update name init f }
  | .swallowsErrors =>
    { s with update := fun name init f => return { ← s.update name init f with error := none } }
  | .delIgnored => { s with delTally := fun _ => return .ok () }
  | .reversedNames =>
    { s with tallyNames := do
        let r ← s.tallyNames
        return match r.value with
          | [a, b] => { r with value := [b, a] }
          | _ => r }

def sampleCodes : List String := ["(+ 1 2)", "(def x 1)", "(def y 2)", "(+ x y)"]

def sampleEntries : List HistoryEntry :=
  sampleCodes.zipIdx.map fun (code, i) => { seq := i + 1, code }

def pairText (value : String) (r : Reply α) : String := "(" ++ value ++ ", " ++ r.errorText ++ ")"

def entriesText (es : List HistoryEntry) : String :=
  "[" ++ " ".intercalate (es.map fun e => "\x7b" ++ toString e.seq ++ " " ++ e.code ++ "\x7d") ++ "]"

def expectNumber (what : String) (want : Nat) (r : Reply Nat) : TrialM Unit :=
  expect (r.value == want && r.error.isNone)
    (what ++ " => " ++ pairText (toString r.value) r ++ ", want (" ++ toString want ++ ", nil)")

def expectEntries (what : String) (want : List HistoryEntry) (r : Reply (List HistoryEntry)) :
    TrialM Unit :=
  expect (r.value == want && r.error.isNone)
    (what ++ " => error " ++ r.errorText ++ ", (-want +got):")

def historyTests (s : Service) : TrialM Unit := do
  let r ← s.history 0
  expect (r.value.isEmpty && r.error.isNone)
    ("History(0) => " ++ pairText (entriesText r.value) r ++ " on a new store, want (empty, nil)")
  for e in sampleEntries do
    expectNumber ("AddHistory(" ++ Text.mention e.code ++ ")") e.seq (← s.addHistory e.code)
  expectNumber "AddHistory of the latest entry" 4 (← s.addHistory "(+ x y)")
  for n in [0, -1, 2, 4, 10] do
    let want :=
      if 0 < n && n < 4 then sampleEntries.drop (4 - n.toNat) else sampleEntries
    expectEntries ("History(" ++ toString n ++ ")") want (← s.history n)
  expectNumber "TrimHistory(10)" 0 (← s.trimHistory 10)
  expectNumber "TrimHistory(1)" 3 (← s.trimHistory 1)
  expectEntries "History(0) after TrimHistory" (sampleEntries.drop 3) (← s.history 0)
  expectNumber "AddHistory after TrimHistory" 5 (← s.addHistory "x")
  expectNumber "TrimHistory(0)" 2 (← s.trimHistory 0)

def sampleAccumulator : Datum := .list [.int 1, .str "a", .sym "b"]

def bareText : Datum → String
  | .null => "<nil>"
  | d => d.display

def saysAbsent (r : Reply α) : Bool := r.error == some Reason.noSuchTally.message

def isEleven : Datum → Bool
  | .int i => i == 11
  | _ => false

def increment : Datum → Computation
  | .int i => pure (.int (i + 1))
  | _ => throw "not an integer"

def expectDatum (what : String) (want : Datum) (r : Reply Datum) : TrialM Unit :=
  expect (r.value.equal want && r.error.isNone)
    (what ++ " => " ++ pairText r.value.plain r ++ ", want (" ++ want.plain ++ ", nil)")

def tallyTests (s : Service) : TrialM Unit := do
  let name := "total"
  let acc := sampleAccumulator
  let quoted := Text.mention name
  let r ← s.tally name
  expect (saysAbsent r)
    ("Tally(" ++ quoted ++ ") => " ++ pairText (bareText r.value) r ++ ", want (nil, ErrNoTally)")
  let set ← s.setTally name acc
  expect set.error.isNone
    ("SetTally(" ++ quoted ++ ", ...) => " ++ set.errorText ++ ", want nil")
  expectDatum ("Tally(" ++ quoted ++ ")") acc (← s.tally name)
  let unwanted : Computation := do
    report "init called for existing tally"
    return .null
  expectDatum "UpdateTally" (.list [acc, .int 2])
    (← s.update name unwanted fun old => return .list [old, .int 2])
  let r ← s.update "count" (return .int 10) increment
  expect (isEleven r.value && r.error.isNone)
    ("UpdateTally => " ++ pairText (bareText r.value) r ++ ", want (11, nil)")
  let r ← s.update "count" (return .null) fun _ => throw "fail"
  expect (r.error == some "fail") ("UpdateTally => " ++ r.errorText ++ ", want fail")
  let r ← s.tally "count"
  expect (isEleven r.value)
    ("Tally(count) => " ++ bareText r.value ++ " after failed update, want 11")
  let r ← s.tallyNames
  expect (r.value == ["count", name] && r.error.isNone)
    ("TallyNames() => " ++ pairText ("[" ++ " ".intercalate r.value ++ "]") r
      ++ ", want ([count total], nil)")
  let del ← s.delTally name
  expect del.error.isNone ("DelTally(" ++ quoted ++ ") => " ++ del.errorText ++ ", want nil")
  let r ← s.tally name
  expect (saysAbsent r)
    ("Tally(" ++ quoted ++ ") => " ++ r.errorText ++ " after DelTally, want ErrNoTally")

/-- The reports of tests on a new store, with a flaw or without. -/
def runSuite (tests : Service → TrialM Unit) (flaw : Option Flaw) : List String :=
  let service := (flaw.map (Flaw.apply .sound)).getD .sound
  ((tests service).run { store := .empty, reports := [] }).2.reports

end EventTally.Testing
