import EventTally.Datum.Basic
import EventTally.Text.Width

/-! # Text of data

`serialize` writes a tree as source code, with bracket, quote, pin and spread sugar wherever the
parser reads the sugar back as the same tree. `repr` writes a value: collections in brackets, on
one line or indented, the entries of dicts and the elements of sets sorted by their text.
-/

namespace EventTally.Datum

/-- The indent level at which nothing is broken into lines, however deep it is nested. -/
def noIndent : Int := -2147483648

def spaces (n : Nat) : String := String.ofList (List.replicate n ' ')

/-- Puts the texts of elements between brackets: on one line if the indent level is negative,
otherwise each on a line of its own. -/
def bracketed (opener closer : String) (indent : Int) (elems : List String) : String :=
  if elems.isEmpty then opener ++ closer
  else if indent < 0 then opener ++ " ".intercalate elems ++ closer
  else
    let inner := "\n" ++ spaces (2 * (indent.toNat + 1))
    opener ++ String.join (elems.map (inner ++ ·)) ++ "\n" ++ spaces (2 * indent.toNat) ++ closer

def alignEntries (indent : Int) (entries : List (String × String)) : List String :=
  let widest := (entries.map fun e => Text.displayWidth e.1).foldl max 0
  entries.map fun (k, v) =>
    if indent < 0 then k ++ " " ++ v else k ++ spaces (1 + widest - Text.displayWidth k) ++ v

inductive Sugar where
  | plain
  | quote
  | pin
  | literal (b : Bracket)
  | spread (b : Bracket)
  deriving DecidableEq, Repr, Inhabited

def isTagged (tag : String) : Datum → Bool
  | .list (.atom (.sym s) :: _) => s = tag
  | _ => false

def isEmptyChunk : Datum → Bool
  | .list [_] => true
  | _ => false

/-- Whether the children of an `(into_tag …)` form can be written with spread signs: there is a
spread, no chunk is empty and no two chunks are adjacent. -/
def canonicalSpread (tag : String) : Bool → List Datum → Bool
  | _, [] => false
  | afterChunk, d :: ds =>
    if isTagged tag d then
      !afterChunk && !isEmptyChunk d && canonicalSpread tag true ds
    else restCanonical false ds
where
  /-- The same once a spread has been seen. -/
  restCanonical : Bool → List Datum → Bool
    | _, [] => true
    | afterChunk, d :: ds =>
      if isTagged tag d then !afterChunk && !isEmptyChunk d && restCanonical true ds
      else restCanonical false ds

def isUnquote : Datum → Bool
  | .list [.atom (.sym s), _] => s = "unquote"
  | _ => false

def sugarOf : List Datum → Sugar
  | .atom (.sym head) :: rest =>
    match rest with
    | [x] =>
      if head = "quote" then (if isUnquote x then .pin else .quote) else collection head rest
    | _ => collection head rest
  | _ => .plain
where
  /-- The sugar of a form by its head alone. -/
  collection (head : String) (rest : List Datum) : Sugar :=
    match Bracket.ofTag? head with
    | some b => .literal b
    | none =>
      match Bracket.ofIntoTag? head with
      | some b => if canonicalSpread b.tag false rest then .spread b else .plain
      | none => .plain

mutual

/-- The datum as source code. -/
def serialize : Datum → String
  | .atom a => a.text
  | .list elems =>
    match sugarOf elems with
    | .plain => "(" ++ " ".intercalate (texts elems) ++ ")"
    | .quote => "'" ++ ((texts elems)[1]?).getD ""
    | .pin => "^" ++ (((innerTexts elems)[1]?).getD [])[1]?.getD ""
    | .literal b => b.opener ++ " ".intercalate ((texts elems).drop 1) ++ b.closer
    | .spread b => b.opener ++ " ".intercalate ((spreadTexts b.tag elems).drop 1) ++ b.closer
  | .tuple elems => bracketed "\x7b" "\x7d" noIndent (reprs noIndent elems)
  | .set elems => bracketed "#[" "]" noIndent ((reprs noIndent elems).mergeSort (· ≤ ·))
  | .dict entries =>
    bracketed "#\x7b" "\x7d" noIndent
      (alignEntries noIndent ((reprEntries noIndent entries).mergeSort (·.1 ≤ ·.1)))
  | .builtin name => "<builtin " ++ name ++ ">"
  | .closure _ _ pattern body => "(fn " ++ serialize pattern ++ " " ++ serialize body ++ ")"

def texts : List Datum → List String
  | [] => []
  | d :: ds => serialize d :: texts ds

def elemTexts : Datum → List String
  | .list elems => texts elems
  | _ => []

def innerTexts : List Datum → List (List String)
  | [] => []
  | d :: ds => elemTexts d :: innerTexts ds

/-- The elements of a literal with spreads: chunks without their tag, other trees after a spread
sign. -/
def spreadTexts (tag : String) : List Datum → List String
  | [] => []
  | d :: ds =>
    (if isTagged tag d then (elemTexts d).drop 1 else ["&" ++ serialize d]) ++ spreadTexts tag ds

/-- The representation of a value at an indent level. -/
def repr (indent : Int) : Datum → String
  | .atom a => a.text
  | .list elems => bracketed "[" "]" indent (reprs (indent + 1) elems)
  | .tuple elems => bracketed "\x7b" "\x7d" indent (reprs (indent + 1) elems)
  | .set elems => bracketed "#[" "]" indent ((reprs (indent + 1) elems).mergeSort (· ≤ ·))
  | .dict entries =>
    bracketed "#\x7b" "\x7d" indent
      (alignEntries indent ((reprEntries (indent + 1) entries).mergeSort (·.1 ≤ ·.1)))
  | .builtin name => "<builtin " ++ name ++ ">"
  | .closure _ _ pattern body => "(fn " ++ serialize pattern ++ " " ++ serialize body ++ ")"

def reprs (indent : Int) : List Datum → List String
  | [] => []
  | d :: ds => repr indent d :: reprs indent ds

def reprEntries (indent : Int) : List (Datum × Datum) → List (String × String)
  | [] => []
  | (k, v) :: es => (repr noIndent k, repr indent v) :: reprEntries indent es

end

def plain (d : Datum) : String := repr noIndent d

/-- Strings and symbols as they are, everything else by its representation. -/
def display : Datum → String
  | .atom (.str s) => s
  | .atom (.sym s) => s
  | d => d.plain

/-- Trees as source code, one on a line. -/
def serializeAll (ds : List Datum) : String := "\n".intercalate (texts ds)

end EventTally.Datum

namespace EventTally.Expr

def serialize (e : Expr) : String := (Datum.ofExpr e).serialize

def serializeAll (es : List Expr) : String := Datum.serializeAll (Datum.ofExprs es)

end EventTally.Expr
