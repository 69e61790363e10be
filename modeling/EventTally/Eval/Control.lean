import EventTally.Eval.Recursor

/-! # Builtins that control evaluation

Quoting, conditions, definitions, functions, threading and loops, and the access to elements.
-/

namespace EventTally.EvalM

def quoteAll (r : Recursor) (s : ScopeRef) : List Code → EvalM (List Value)
  | [] => pure []
  | c :: cs => do
    let v ← r.quote c s
    return v :: (← quoteAll r s cs)

/-- Copies a form into a new list; `(unquote x)` in it is replaced by the value of `x`. -/
def quoteStep (r : Recursor) (c : Code) (s : ScopeRef) : EvalM Value := do
  match ← resolve c with
  | .value v@(.list _) => quoteForm (.value v)
  | .value v => return v
  | c => quoteForm c
where
  /-- Quotes the elements unless the form is an unquote. -/
  quoteForm (c : Code) : EvalM Value := do
    let elems := (← formOf? c).getD []
    if (← headOf? elems) = some "unquote" then
      match elems with
      | [_, x] => r.eval x s
      | _ => fail (.arity "arguments of unquote" 1 1 ((elems.length : Int) - 1))
    else newList (← quoteAll r s elems)

/-- Evaluates in order and gives the last value, or the one given if there is none. -/
def evalSequence (r : Recursor) (s : ScopeRef) (last : Value) : List Code → EvalM Value
  | [] => pure last
  | c :: cs => do
    let v ← r.eval c s
    evalSequence r s v cs

def callCond (r : Recursor) (args : List Code) (s : ScopeRef) : EvalM Value := do
  checkArity args 2 3
  match args with
  | c :: yes :: no =>
    let v ← r.eval c s
    if (← heap).truthy v then r.eval yes s
    else
      match no with
      | no :: _ => r.eval no s
      | [] => return .null
  | _ => return .null

def callDefine (r : Recursor) (args : List Code) (s : ScopeRef) : EvalM Value := do
  checkArity args 2 2
  match args with
  | [pattern, c] =>
    let v ← r.eval c s
    r.bind pattern (.value v) s
    return v
  | _ => return .null

def codeKind (c : Code) : EvalM String := do
  match ← resolve c with
  | .value v => return v.kind
  | _ => return "list"

def symbolNames : List Code → EvalM (List String)
  | [] => pure []
  | c :: cs => do
    match ← symbolOf? c with
    | some name => return name :: (← symbolNames cs)
    | none => fail (.badValue "argument" "symbol" (← codeKind c))

def removeNames (s : ScopeRef) (last : Value) : List String → EvalM Value
  | [] => pure last
  | name :: names => do
    let v := ((← heap).lookup s name).getD .null
    modifyHeap (·.unbind s name)
    removeNames s v names

def callUndefine (args : List Code) (s : ScopeRef) : EvalM Value := do
  removeNames s .null (← symbolNames args)

def callIsDefined (args : List Code) (s : ScopeRef) : EvalM Value := do
  let names ← symbolNames args
  let h ← heap
  return .bool (names.all fun name => (h.lookup s name).isSome)

/-- Arguments are bound to a list pattern, with or without spreads. -/
def checkPattern (pattern : Code) : EvalM Unit := do
  let head ← do
    match ← formOf? pattern with
    | some elems => headOf? elems
    | none => pure none
  if head = some "list" || head = some "into_list" then return
  else
    fail (.badValue "argument pattern" "list or list with spread" (← codeDatum pattern).plain)

/-- Makes a function; a name is bound to it in its own scope, so that it can call itself. -/
def makeClosure (pattern body : Code) (s : ScopeRef) (name : String) : EvalM Value := do
  let f := Value.closure (← allocate (·.newClosure { pattern, body, scope := s, name }))
  if name ≠ "" then bindName s name f
  return f

def callFunction (args : List Code) (s : ScopeRef) : EvalM Value := do
  checkArity args 2 (-1)
  match ← resolveAll args with
  | pattern :: body =>
    checkPattern pattern
    makeClosure pattern (bodyOf body) s ""
  | [] => return .null

def callDefineFunction (args : List Code) (s : ScopeRef) : EvalM Value := do
  checkArity args 3 (-1)
  match ← resolveAll args with
  | name :: pattern :: body =>
    match ← symbolOf? name with
    | some name =>
      checkPattern pattern
      makeClosure pattern (bodyOf body) s name
    | none => fail (.badValue "function name" "symbol" (← codeKind name))
  | _ => return .null

/-- Puts `c` into each form as its first argument, inside out. -/
def threadForms (c : Code) : List Code → EvalM Code
  | [] => pure c
  | form :: forms => do
    match ← formOf? form with
    | some (head :: rest) =>
      let head ← resolve head
      let rest ← resolveAll rest
      threadForms (.form (head :: c :: rest)) forms
    | _ =>
      fail (.badValue "argument after the first" "non-empty form" (← codeDatum form).plain)

def callThread (r : Recursor) (args : List Code) (s : ScopeRef) : EvalM Value := do
  checkArity args 1 (-1)
  match args with
  | c :: forms =>
    let c ← resolve c
    r.eval (← threadForms c forms) s
  | [] => return .null

/-- Binds each place to the pattern in turn and evaluates the body. -/
def evalEach (r : Recursor) (s : ScopeRef) (pattern body : Code) (last : Value) :
    List Place → EvalM Value
  | [] => pure last
  | p :: ps => do
    r.bind pattern p s
    let v ← r.eval body s
    evalEach r s pattern body v ps

def callEach (r : Recursor) (args : List Code) (s : ScopeRef) : EvalM Value := do
  checkArity args 2 (-1)
  match args with
  | pattern :: c :: body =>
    let pattern ← resolve pattern
    let body := bodyOf (← resolveAll body)
    let col ← r.eval c s
    evalEach r s pattern body .null (← ofExcept ((← heap).loopPlaces col))
  | _ => return .null

/-- Evaluates keys and values in turn and makes a dict of them. -/
def evalEntries (r : Recursor) (s : ScopeRef) (acc : List (Value × Value)) :
    List Code → EvalM Value
  | k :: v :: rest => do
    let key ← r.eval k s
    let value ← r.eval v s
    evalEntries r s (← ofExcept ((← heap).insertEntry key value acc)) rest
  | _ => newDict acc

def callDict (r : Recursor) (args : List Code) (s : ScopeRef) : EvalM Value :=
  if args.length % 2 ≠ 0 then
    fail (.badValue "number of arguments" "even" (toString args.length))
  else evalEntries r s [] args

/-- The element of a collection at a key, or the default if the key is not there. -/
def getFrom (r : Recursor) (col : Value) (args : List Code) (s : ScopeRef) : EvalM Value := do
  checkArity args 1 2
  match args with
  | [k] =>
    let key ← r.eval k s
    ofExcept ((← heap).index col key)
  | k :: default :: _ =>
    let key ← r.eval k s
    let h ← heap
    if h.hasIndex col key then ofExcept (h.index col key) else r.eval default s
  | [] => return .null

def callGet (r : Recursor) (args : List Code) (s : ScopeRef) : EvalM Value := do
  checkArity args 2 3
  match args with
  | c :: rest =>
    let col ← r.eval c s
    getFrom r col rest s
  | [] => return .null

/-- The value is evaluated first, then the collection and the key. -/
def callPut (r : Recursor) (args : List Code) (s : ScopeRef) : EvalM Value := do
  checkArity args 3 3
  match ← resolveAll args with
  | [c, k, v] =>
    let value ← r.eval v s
    let col ← r.eval c s
    let key ← r.eval k s
    let h ← ofExcept ((← heap).put col key value)
    modifyHeap fun _ => h
    return value
  | _ => return .null

/-- Removes the elements at keys in turn and gives the last one. -/
def removeKeys (r : Recursor) (s : ScopeRef) (col last : Value) : List Code → EvalM Value
  | [] => pure last
  | k :: ks => do
    let key ← r.eval k s
    let (v, h) ← ofExcept ((← heap).remove col key)
    modifyHeap fun _ => h
    removeKeys r s col v ks

def callDel (r : Recursor) (args : List Code) (s : ScopeRef) : EvalM Value := do
  checkArity args 1 (-1)
  match args with
  | c :: ks =>
    let col ← r.eval c s
    removeKeys r s col .null ks
  | [] => return .null

/-- The stored accumulator of a tally, whose name is not evaluated. -/
def callGetTally (args : List Code) : EvalM Value := do
  checkArity args 1 1
  match args with
  | c :: _ =>
    match ← symbolOf? c with
    | some name => thaw (← ofExcept ((← get).store.tally name))
    | none => fail (.badValue "tally name" "symbol" (← codeKind c))
  | [] => return .null

/-- Evaluates in order, noting each value in the journal, and gives the last one. -/
def callProbe (r : Recursor) (s : ScopeRef) (last : Value) : List Code → EvalM Value
  | [] => pure last
  | c :: cs => do
    let v ← r.eval c s
    note (← datum v).plain
    callProbe r s v cs

end EventTally.EvalM
