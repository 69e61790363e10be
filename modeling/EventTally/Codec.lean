import EventTally.Decimal.Reading
import EventTally.Json
import EventTally.Keyed
import EventTally.Reason

/-! # Storage encoding

Data as JSON. Strings start with `s:` and symbols with `k:`; lists are arrays; tuples, dicts and
sets are objects with one field. Entries of dicts and elements of sets are sorted by their text, so
the order in which they were added does not show. Integers and floats are told apart by the text
of the number.
-/

namespace EventTally.Codec

def sortByText (js : List Json) : List Json := js.mergeSort fun a b => a.text ≤ b.text

def encodeAtom : Atom → Except Reason Json
  | .null => .ok .null
  | .bool b => .ok (.bool b)
  | .int i => .ok (.num (toString i.toInt))
  | .float f =>
    if f.isInf || f.isNaN then .error .nonFinite else .ok (.num (Decimal.compactText f))
  | .str s => .ok (.str ("s:" ++ s))
  | .sym name => .ok (.str ("k:" ++ name))

mutual

def encode : Datum → Except Reason Json
  | .atom a => encodeAtom a
  | .list elems => do return .arr (← encodeAll elems)
  | .tuple elems => do return .obj [("tuple", .arr (← encodeAll elems))]
  | .dict entries => do return .obj [("dict", .arr (sortByText (← encodeEntries entries)))]
  | .set elems => do return .obj [("set", .arr (sortByText (← encodeAll elems)))]
  | .builtin _ => .error (.badValue "value to encode" "data" "builtin")
  | .closure .. => .error (.badValue "value to encode" "data" "fn")

def encodeAll : List Datum → Except Reason (List Json)
  | [] => .ok []
  | d :: ds => do
    let j ← encode d
    return j :: (← encodeAll ds)

def encodeEntries : List (Datum × Datum) → Except Reason (List Json)
  | [] => .ok []
  | (k, v) :: es => do
    let j ← encode k
    let l ← encode v
    return .arr [j, l] :: (← encodeEntries es)

end

/-- The stored text of a datum. Only so many arrays and objects with something in them may be open at
once; reading also counts those that are empty. -/
def marshal (d : Datum) : Except Reason String := do
  let j ← encode d
  if j.opened ≤ Json.maxDepth then return j.text else throw .tooDeep

def numberFloat (text : String) : Float :=
  let (negative, body) := Decimal.splitSign text.toList
  let isMark := fun c => c == 'e' || c == 'E'
  let mantissa := body.takeWhile (!isMark ·)
  let power := (body.dropWhile (!isMark ·)).drop 1
  let whole := mantissa.takeWhile (· != '.')
  let places := (mantissa.dropWhile (· != '.')).drop 1
  Decimal.read negative whole places (Decimal.readInt power)

/-- A number without point and exponent that fits 64 bits is an integer, any other a float. -/
def decodeNumber (text : String) : Except Reason Datum :=
  let digits := text.toList
  let isInt := !digits.any fun c => c == '.' || c == 'e' || c == 'E'
  match if isInt then Decimal.readInt64? digits else none with
  | some i => .ok (.int i)
  | none =>
    let f := numberFloat text
    if f.isInf then .error (.numberRange text) else .ok (.float f)

/-- A number that has already become a double is an integer if it is integral and below `2^53` in
size. -/
def decodeDouble (text : String) : Except Reason Datum :=
  let f := numberFloat text
  if f.isInf then .error .malformedJson
  else
    match Decimal.integer? f with
    | some n => if n.natAbs < 9007199254740992 then .ok (.int (Int64.ofInt n)) else .ok (.float f)
    | none => .ok (.float f)

def decodeString (s : String) : Except Reason Datum :=
  match s.toList with
  | 's' :: ':' :: cs => .ok (.str (String.ofList cs))
  | 'k' :: ':' :: cs => .ok (.sym (String.ofList cs))
  | _ => .error .noPrefix

def setOf (elems : List Datum) : Except Reason Datum := do
  let elems ← elems.foldlM (fun acc d =>
    if d.hashable then .ok (Keyed.insertElem d.sameKey d acc) else .error (.unhashable d.kind)) []
  return .set elems

def dictOf (elems : List Datum) : Except Reason Datum := do
  let entries ← elems.foldlM (fun acc d =>
    match d with
    | .list [k, v] =>
      if k.hashable then .ok (Keyed.insert k.sameKey k v acc) else .error (.unhashable k.kind)
    | _ => .error .badEntry) []
  return .dict entries

def collection (kind : String) (elems : List Datum) : Except Reason Datum :=
  if kind = "tuple" then .ok (.tuple elems)
  else if kind = "set" then setOf elems
  else if kind = "dict" then dictOf elems
  else .error (.unknownKind kind)

mutual

/-- The datum that a JSON value encodes; `number` reads numbers. -/
def decodeWith (number : String → Except Reason Datum) : Json → Except Reason Datum
  | .null => .ok .null
  | .bool b => .ok (.bool b)
  | .num text => number text
  | .str s => decodeString s
  | .arr js => do return .list (← decodeElems number js)
  | .obj fields =>
    match Keyed.ofEntries (decodeFields number fields) with
    | [(kind, elems)] => do collection kind (← elems)
    | distinct => .error (.keyCount distinct.length)

def decodeElems (number : String → Except Reason Datum) : List Json → Except Reason (List Datum)
  | [] => .ok []
  | j :: js => do
    let d ← decodeWith number j
    return d :: (← decodeElems number js)

def decodeFields (number : String → Except Reason Datum) :
    List (String × Json) → List (String × Except Reason (List Datum))
  | [] => []
  | (name, j) :: fields =>
    (name,
      match j with
      | .arr js => decodeElems number js
      | _ => .error (.notArray name)) :: decodeFields number fields

end

def decode (j : Json) : Except Reason Datum := decodeWith decodeNumber j

mutual

/-- The datum of JSON that was not produced by encoding: strings are taken as they are and objects
become dicts with string keys. -/
def decodePlain : Json → Except Reason Datum
  | .null => .ok .null
  | .bool b => .ok (.bool b)
  | .num text => decodeNumber text
  | .str s => .ok (.str s)
  | .arr js => do return .list (← decodePlainElems js)
  | .obj fields => do
    let entries ← (Keyed.ofEntries (decodePlainFields fields)).mapM fun (name, d) => do
      return (Datum.str name, ← d)
    return .dict entries

def decodePlainElems : List Json → Except Reason (List Datum)
  | [] => .ok []
  | j :: js => do
    let d ← decodePlain j
    return d :: (← decodePlainElems js)

def decodePlainFields : List (String × Json) → List (String × Except Reason Datum)
  | [] => []
  | (name, j) :: fields => (name, decodePlain j) :: decodePlainFields fields

end

/-- The datum of a stored text. After the first value only the end or a closing bracket may
follow. -/
def unmarshal (text : String) : Except Reason Datum :=
  match Json.readFirst text.toList with
  | none => .error .malformedJson
  | some (j, rest) => if Json.hasMore rest then .error .extraData else decode j

end EventTally.Codec
