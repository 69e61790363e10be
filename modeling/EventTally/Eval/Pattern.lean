import EventTally.Eval.Recursor

/-! # Patterns

A symbol takes the value. A collection literal matches a collection of its kind element by
element, the keys of dicts and sets being evaluated. In a literal with spreads the chunks match
leading elements, or keys that are then removed, and a spread takes all that is left. Any other
pattern is evaluated and compared with the value.
-/

namespace EventTally.EvalM

def mismatch (detail : String) : EvalM α := fail (.patternMismatch "value" detail)

def wrongKind (b : Bracket) (v : Value) : EvalM α :=
  mismatch ("must be a " ++ b.tag ++ ", but is " ++ v.kind)

def bindEach (r : Recursor) (s : ScopeRef) : List Code → List Place → EvalM Unit
  | p :: ps, v :: vs => do
    r.bind p v s
    bindEach r s ps vs
  | _, _ => pure ()

def bindElems (r : Recursor) (s : ScopeRef) (patterns : List Code) (places : List Place) :
    EvalM Unit :=
  if patterns.length = places.length then bindEach r s patterns places
  else mismatch ("must have " ++ Reason.plural patterns.length "element" ++ ", but has "
    ++ toString places.length)

/-- Evaluates the keys of a dict pattern and gives its entries in the order of iteration. The last of
several patterns with the same key counts. -/
def dictPattern (r : Recursor) (s : ScopeRef) (elems : List Code) : EvalM (List (Value × Code)) :=
  if elems.length % 2 ≠ 0 then
    fail (.badValue "number of elements in dict pattern" "even" (toString elems.length))
  else collect [] elems
where
  /-- Adds the remaining keys to those evaluated. -/
  collect (acc : List (Value × Code)) : List Code → EvalM (List (Value × Code))
    | k :: p :: rest => do
      let key ← r.eval k s
      let p ← resolve p
      collect (← ofExcept ((← heap).insertEntry key p acc)) rest
    | _ => do return (← heap).sortEntries acc

/-- Matches the value of each key and removes it; gives the entries that are left. -/
def bindEntries (r : Recursor) (s : ScopeRef) :
    List (Value × Code) → List (Value × Value) → EvalM (List (Value × Value))
  | [], entries => pure entries
  | (k, p) :: patterns, entries => do
    let h ← heap
    match h.findEntry entries k with
    | none => mismatch ("lacks key " ++ (← datum k).plain)
    | some v =>
      let rest := Keyed.erase (h.sameKey k) entries
      r.bind p (.value v) s
      bindEntries r s patterns rest

/-- Evaluates the elements of a set pattern and gives them in the order of iteration. -/
def setPattern (r : Recursor) (s : ScopeRef) (elems : List Code) : EvalM (List Value) :=
  collect [] elems
where
  /-- Adds the remaining elements to those evaluated. -/
  collect (acc : List Value) : List Code → EvalM (List Value)
    | [] => do return (← heap).sortMembers acc
    | c :: rest => do
      let v ← r.eval c s
      collect (← ofExcept ((← heap).insertMember v acc)) rest

def removeMembers : List Value → List Value → EvalM (List Value)
  | [], members => pure members
  | v :: wanted, members => do
    let h ← heap
    if members.any (h.sameKey v) then removeMembers wanted (members.eraseP (h.sameKey v))
    else mismatch ("lacks element " ++ (← datum v).plain)

def bindPlain (r : Recursor) (s : ScopeRef) (b : Bracket) (elems : List Code) (v : Value) :
    EvalM Unit := do
  match b, v with
  | .list, .list l => bindElems r s elems ((← heap).places l)
  | .tuple, .tuple vs => bindElems r s elems (vs.map .value)
  | .dict, .dict d =>
    let patterns ← dictPattern r s elems
    let entries := (← heap).entries d
    if patterns.length = entries.length then
      let _ ← bindEntries r s patterns entries
    else mismatch ("must have " ++ Reason.plural patterns.length "key" ++ ", but has "
      ++ toString entries.length)
  | .set, .set m =>
    let wanted ← setPattern r s elems
    let members := (← heap).members m
    if wanted.length = members.length then
      let _ ← removeMembers wanted members
    else mismatch ("must have " ++ Reason.plural wanted.length "element" ++ ", but has "
      ++ toString members.length)
  | b, v => wrongKind b v

/-- What is left of a sequence, as a new sequence of the same kind. -/
def restOf (b : Bracket) (places : List Place) : EvalM Value := do
  let h ← heap
  let vs := places.map h.read
  if b = .tuple then return .tuple vs else newList vs

def bindSpreadSeq (r : Recursor) (s : ScopeRef) (b : Bracket) :
    List Code → List Place → EvalM Unit
  | [], _ => pure ()
  | chunk :: chunks, places => do
    match ← taggedForm? b.tag chunk with
    | some elems =>
      if places.length < elems.length then
        mismatch ("must have " ++ Reason.plural elems.length "element" ++ " left, but has "
          ++ toString places.length)
      else
        bindElems r s elems (places.take elems.length)
        bindSpreadSeq r s b chunks (places.drop elems.length)
    | none =>
      let rest ← restOf b places
      r.bind chunk (.value rest) s
      bindSpreadSeq r s b chunks []

def bindSpreadDict (r : Recursor) (s : ScopeRef) : List Code → List (Value × Value) → EvalM Unit
  | [], _ => pure ()
  | chunk :: chunks, entries => do
    match ← taggedForm? "dict" chunk with
    | some elems =>
      let patterns ← dictPattern r s elems
      bindSpreadDict r s chunks (← bindEntries r s patterns entries)
    | none =>
      let rest ← newDict entries
      r.bind chunk (.value rest) s
      bindSpreadDict r s chunks []

def bindSpreadSet (r : Recursor) (s : ScopeRef) : List Code → List Value → EvalM Unit
  | [], _ => pure ()
  | chunk :: chunks, members => do
    match ← taggedForm? "set" chunk with
    | some elems =>
      let wanted ← setPattern r s elems
      bindSpreadSet r s chunks (← removeMembers wanted members)
    | none =>
      let rest ← newSet members
      r.bind chunk (.value rest) s
      bindSpreadSet r s chunks []

/-- A literal with spreads. What its chunks and spreads leave over is ignored. -/
def bindSpread (r : Recursor) (s : ScopeRef) (b : Bracket) (chunks : List Code) (v : Value) :
    EvalM Unit := do
  match b, v with
  | .list, .list l => bindSpreadSeq r s .list chunks ((← heap).places l)
  | .tuple, .tuple vs => bindSpreadSeq r s .tuple chunks (vs.map .value)
  | .dict, .dict d => bindSpreadDict r s chunks ((← heap).entries d)
  | .set, .set m => bindSpreadSet r s chunks ((← heap).members m)
  | b, v => wrongKind b v

/-- A pattern that is neither a symbol nor a collection: the value must be equal to its value. -/
def bindLiteral (r : Recursor) (s : ScopeRef) (pattern : Code) (v : Value) : EvalM Unit := do
  let want ← r.eval pattern s
  if ← ofOption ((← heap).equal? v want) then return
  else mismatch ("must be " ++ (← datum want).plain ++ ", but is " ++ (← datum v).plain)

def bindStep (r : Recursor) (pattern : Code) (place : Place) (s : ScopeRef) : EvalM Unit := do
  let v ← read place
  let pattern ← resolve pattern
  match pattern with
  | .value (.atom (.sym name)) => if name = "_" then return else bindName s name v
  | pattern =>
    match ← formOf? pattern with
    | none => bindLiteral r s pattern v
    | some elems =>
      match ← headOf? elems with
      | none => bindLiteral r s pattern v
      | some head =>
        match Bracket.ofTag? head, Bracket.ofIntoTag? head with
        | some b, _ => bindPlain r s b (elems.drop 1) v
        | none, some b => bindSpread r s b (elems.drop 1) v
        | none, none => bindLiteral r s pattern v

end EventTally.EvalM
