import EventTally.Eval.Evaluate

/-! # Expectations about code

A case gives code to evaluate, names that are bound before, and what is wanted of the result: a
value, a failure, a name that is defined afterwards. What is not as wanted is reported in words.
-/

namespace EventTally

namespace Reason

def kindName : Reason → String
  | .outOfRange .. => "errs.OutOfRange"
  | .badValue .. => "errs.BadValue"
  | .arity .. => "errs.ArityMismatch"
  | .noSuchName _ => "errs.NoSuchName"
  | .patternMismatch .. => "errs.PatternMismatch"
  | .noSuchKey _ => "vals.noSuchKeyError"
  | .cannotIterate _ => "vals.cannotIterate"
  | .unhashable _ => "vals.unhashable"
  | .incomparable .. => "vals.incomparable"
  | .numberRange _ => "*strconv.NumError"
  | .divisionByZero | .emptyForm | .zeroStep | .emptySeparator | .raised | .noSuchTally
  | .keyRequired | .malformedJson | .noPrefix | .nonFinite | .tooDeep | .keyCount _
  | .notArray _ | .badEntry | .unknownKind _ | .extraData | .accumulatorKind _ => "*errors.errorString"

def details : Reason → List String
  | .outOfRange what low high actual => [what, toString low, toString high, actual]
  | .badValue what valid actual => [what, valid, actual]
  | .arity what low high actual => [what, toString low, toString high, toString actual]
  | .patternMismatch what detail => [what, detail]
  | .noSuchKey key => [key.kind, key.plain]
  | r => [r.message]

end Reason

namespace Testing

inductive ValueWant where
  | equal (v : Value)
  | repr (text : String)
  | anything
  deriving Inhabited

inductive ReasonWant where
  | equal (r : Reason)
  | sameKind (r : Reason)
  | message (text : String)
  | any
  deriving Inhabited

inductive FaultWant where
  | parseError
  /-- An exception; any trace will do if none is given. -/
  | raised (reason : ReasonWant) (trace : List String)
  deriving Inhabited

namespace ValueWant

def accepts (h : Heap) (got : Value) : ValueWant → Bool
  | .equal v => h.equal? v got = some true
  | .repr text => (h.datum got).plain == text
  | .anything => true

def text (h : Heap) : ValueWant → String
  | .equal v => (h.datum v).plain
  | .repr text => "value with repr " ++ text
  | .anything => "anything"

end ValueWant

namespace ReasonWant

def accepts (got : Reason) : ReasonWant → Bool
  | .equal r => r.kindName == got.kindName && r.details == got.details
  | .sameKind r => r.kindName == got.kindName
  | .message text => text == got.message
  | .any => true

def text : ReasonWant → String
  | .equal r => r.message
  | .sameKind r => "error with type " ++ r.kindName
  | .message text => "error with message " ++ text
  | .any => "any error"

end ReasonWant

namespace FaultWant

def accepts : FaultWant → SourceFault → Bool
  | .parseError, .parse _ => true
  | .raised reason trace, .run (.raised e) =>
    reason.accepts e.reason && (trace.isEmpty || trace == e.trace)
  | _, _ => false

def text : FaultWant → String
  | .parseError => "any parse error"
  | .raised reason trace =>
    "exception with reason " ++ reason.text
      ++ (if trace.isEmpty then "" else " and trace [" ++ " ".intercalate trace ++ "]")

end FaultWant

def nothing : String := "<nil>"

def traceText (trace : List String) : String :=
  if trace.isEmpty then "[]string(nil)"
  else "[]string\x7b" ++ ", ".intercalate (trace.map Text.mention) ++ "\x7d"

def describeFault : Option SourceFault → List String
  | none => ["got: " ++ nothing ++ ": " ++ nothing]
  | some (.parse e) => ["got: *parse.Error: " ++ e.text]
  | some (.run (.raised e)) =>
    ["got: " ++ e.reason.kindName ++ ": " ++ e.text, "trace: " ++ traceText e.trace]
  | some (.run f) => ["got: " ++ f.summary]

def faultFits : Option FaultWant → Option SourceFault → Bool
  | none, none => true
  | some want, some got => want.accepts got
  | _, _ => false

def faultReport (want : Option FaultWant) (got : Option SourceFault) : List String :=
  if faultFits want got then []
  else ["unexpected exception"] ++ describeFault got
    ++ ["want: " ++ (want.map FaultWant.text).getD nothing]

structure EvalCase where
  code : String
  /-- The names that are bound before the code is evaluated. -/
  setup : List (String × Value)
  /-- A name that has to be defined afterwards. -/
  defines : Option String
  value : Option ValueWant
  fault : Option FaultWant
  deriving Inhabited

namespace EvalCase

def nameReport (c : EvalCase) (h : Heap) (s : ScopeRef) : List String :=
  match c.defines with
  | some name => if (h.lookup s name).isSome then [] else [name ++ " is not defined"]
  | none => []

/-- The report on the value; a failed evaluation counts as null. -/
def valueReport (c : EvalCase) (h : Heap) (got : Value) : List String :=
  match c.value with
  | some want =>
    if want.accepts h got then []
    else ["got value " ++ (h.datum got).plain ++ ", want " ++ want.text h]
  | none => []

/-- Evaluates the code in a new scope and reports what is not as wanted. -/
def run (c : EvalCase) (w : World) : List String :=
  let (s, heap) := w.heap.child Heap.builtinScope
  let heap := heap.bindAll s c.setup
  let (result, w) := evalSource { name := "[test]", code := c.code } s { w with heap }
  let (value, fault) :=
    match result with
    | .ok v => (v, none)
    | .error f => (.null, some f)
  c.nameReport w.heap s ++ c.valueReport w.heap value ++ faultReport c.fault fault

end EvalCase

end Testing

end EventTally
