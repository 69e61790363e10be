import EventTally.Eval.Control
import EventTally.Eval.Lazy
import EventTally.Eval.Pattern
import EventTally.Eval.Strict
import EventTally.Log
import EventTally.Source.Parser

/-! # Evaluation

A symbol evaluates to what it is bound to. A form is evaluated by its head: a builtin gets the
other elements as they are, a function gets their values, a collection is indexed by them. A dict
evaluates its keys and values, everything else evaluates to itself.

Each level of nesting takes one unit of fuel.
-/

namespace EventTally.EvalM

def closureName (c : Closure) : String := if c.name = "" then "<anonymous>" else c.name

/-- Calls a function with values: they are bound to its pattern in a new layer over the scope it
was defined in, and its body is evaluated there. -/
def applyClosure (r : Recursor) (ref : ClosureRef) (args : List Value) : EvalM Value := do
  let c := (← heap).closure ref
  let scope ← newScope c.scope
  withFrame (closureName c) do
    let list ← newList args
    r.bind c.pattern (.value list) scope
    r.eval c.body scope

def callBuiltin (r : Recursor) (b : Builtin) (args : List Code) (s : ScopeRef) : EvalM Value :=
  match b with
  | .quote => do
    checkArity args 1 1
    match args with
    | c :: _ => r.quote c s
    | [] => return .null
  | .eval => do
    checkArity args 1 1
    match args with
    | c :: _ => r.eval (.value (← r.eval c s)) s
    | [] => return .null
  | .sequence => evalSequence r s .null args
  | .cond => callCond r args s
  | .and => do return .bool (!(← evalUntil r s false args))
  | .or => do return .bool (← evalUntil r s true args)
  | .not => do return .bool (!(← evalUntil r s true args))
  | .define => callDefine r args s
  | .undefine => callUndefine args s
  | .isDefined => callIsDefined args s
  | .function => callFunction args s
  | .defineFunction => callDefineFunction args s
  | .thread => callThread r args s
  | .each => callEach r args s
  | .dict => callDict r args s
  | .contains => callContains r args s
  | .get => callGet r args s
  | .put => callPut r args s
  | .del => callDel r args s
  | .strict op => callStrict r op args s
  | .relation rel => callRelation r rel args s
  | .test t negated => do return .bool ((← allPass r s t args) != negated)
  | .getTally => callGetTally args
  | .probe => callProbe r s .null args
  | .raise => fail .raised

def callHead (r : Recursor) (head : Value) (args : List Code) (s : ScopeRef) : EvalM Value := do
  match head with
  | .builtin b => withFrame b.name (callBuiltin r b args s)
  | .closure ref => applyClosure r ref (← evalAll r s args)
  | .list _ | .tuple _ | .dict _ => withFrame "get" (getFrom r head args s)
  | head => fail (.badValue "head of form" "callable or collection" head.kind)

/-- Evaluates a form. Its arguments are taken after its head has been evaluated. -/
def evalForm (r : Recursor) (c : Code) (s : ScopeRef) : EvalM Value := do
  match ← formOf? c with
  | none | some [] => fail .emptyForm
  | some (head :: _) =>
    let v ← r.eval head s
    match ← formOf? c with
    | some (_ :: args) => callHead r v args s
    | _ => throw .crashed

def evalStep (r : Recursor) (c : Code) (s : ScopeRef) : EvalM Value := do
  match ← resolve c with
  | .value (.atom (.sym name)) =>
    match (← heap).lookup s name with
    | some v => return v
    | none => fail (.noSuchName name)
  | .value (.list ref) => evalForm r (.value (.list ref)) s
  | .value (.dict d) =>
    let h ← heap
    let entries := h.sortEntries (h.entries d)
    evalEntries r s [] (entries.flatMap fun (k, v) => [.value k, .value v])
  | .value v => return v
  | c => evalForm r c s

/-- Evaluation, matching and quoting with a given amount of fuel. -/
def recursor : Nat → Recursor
  | 0 =>
    { eval := fun _ _ => throw .exhausted
      bind := fun _ _ _ => throw .exhausted
      quote := fun _ _ => throw .exhausted }
  | fuel + 1 =>
    { eval := fun c s => evalStep (recursor fuel) c s
      bind := fun pattern place s => bindStep (recursor fuel) pattern place s
      quote := fun c s => quoteStep (recursor fuel) c s }

/-- The nesting that an evaluation may reach unless it is limited further. -/
def ampleFuel : Nat := 1000000

/-- Evaluates code in a scope. -/
def eval (c : Code) (s : ScopeRef) : EvalM Value := (recursor ampleFuel).eval c s

def apply (ref : ClosureRef) (args : List Value) : EvalM Value :=
  applyClosure (recursor ampleFuel) ref args

def evalExprs (es : List Expr) (s : ScopeRef) : EvalM Value :=
  evalSequence (recursor ampleFuel) s .null (Code.ofExprs es)

/-- Evaluates code. An exception is not passed on but logged, and the value is null. -/
def evalLogged (c : Code) (s : ScopeRef) : EvalM (Value × List LogEntry) :=
  tryCatch (do return (← eval c s, [])) fun
    | .raised e => return (.null, [{ topic := "eval", message := "exception: " ++ e.text }])
    | fault => throw fault

/-- Evaluates expressions in order and gives the last value and what has been logged. -/
def evalExprsLogged (s : ScopeRef) (last : Value) : List Expr → EvalM (Value × List LogEntry)
  | [] => pure (last, [])
  | e :: es => do
    let (v, entries) ← evalLogged (.ofExpr e) s
    let (last, later) ← evalExprsLogged s v es
    return (last, entries ++ later)

/-- Several expressions as code that evaluates them in order. -/
def bodyOfExprs (es : List Expr) : Code := bodyOf (Code.ofExprs es)

end EventTally.EvalM

namespace EventTally

inductive SourceFault where
  | parse (e : ParseError)
  | run (f : Fault)
  deriving Inhabited

/-- Evaluates a source text: nothing of it is evaluated unless all of it parses. -/
def evalSource (src : Source) (s : ScopeRef) (w : World) : Except SourceFault Value × World :=
  match src.parse? with
  | .error e => (.error (.parse e), w)
  | .ok es =>
    match (EvalM.evalExprs es s).run w with
    | (.ok v, w) => (.ok v, w)
    | (.error f, w) => (.error (.run f), w)

end EventTally
