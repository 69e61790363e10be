import EventTally.Eval.Evaluate
import EventTally.Tally.Rule

/-! # Templates

A template computes the code of rules. It runs with the parameters of a rule bound, as code that
is not evaluated, to their names, and must give a dict. If it has a parent, the entries of the dict
are the parameters of the parent; else they are the code of the rule.

The chain from a template to its last ancestor is a list, no longer than the number of templates,
and expanding a rule goes through it once.
-/

namespace EventTally

structure Template where
  name : String
  /-- The parameters that must be given. -/
  required : List String
  /-- The parameters that may be given. -/
  optional : List String
  code : String
  /-- The template that receives the result, empty if there is none. -/
  parent : String
  deriving DecidableEq, Repr, Inhabited

/-- Why a list of templates is refused. Templates are counted from 1. -/
inductive TemplateFault where
  | unnamed (index : Nat)
  | duplicate (index : Nat) (name : String)
  | empty (name : String)
  | unparsable (name : String) (e : ParseError)
  | noParent (name parent : String)
  | cycle (name : String)
  deriving Inhabited

namespace TemplateFault

def message : TemplateFault → String
  | .unnamed i => "template " ++ toString i ++ ": name is required"
  | .duplicate i name => "template " ++ toString i ++ ": duplicate name " ++ name
  | .empty name => "template " ++ name ++ ": template is required"
  | .unparsable name e => "template " ++ name ++ ": " ++ e.text
  | .noParent name parent => "template " ++ name ++ ": no parent template " ++ parent
  | .cycle name => "template " ++ name ++ ": cycle of parents"

end TemplateFault

structure Blueprint where
  template : Template
  body : Code
  deriving Inhabited

namespace Template

/-- Finds a template by name. -/
def find? (bs : List Blueprint) (name : String) : Option Blueprint :=
  bs.find? fun b => b.template.name == name

/-- Parses one template, the `index`-th, after those in `done`. -/
def prepare (done : List Blueprint) (index : Nat) (t : Template) :
    Except TemplateFault Blueprint :=
  if t.name = "" then .error (.unnamed index)
  else if (find? done t.name).isSome then .error (.duplicate index t.name)
  else if t.code = "" then .error (.empty t.name)
  else
    match Source.parse? { name := "[template " ++ t.name ++ "]", code := t.code } with
    | .error e => .error (.unparsable t.name e)
    | .ok es => .ok { template := t, body := EvalM.bodyOfExprs es }

def prepareAll (done : List Blueprint) : List Template → Except TemplateFault (List Blueprint)
  | [] => .ok done
  | t :: ts => do
    let b ← prepare done (done.length + 1) t
    prepareAll (done ++ [b]) ts

/-- The template, its parent, the parent of that and so on, if the chain ends within `fuel`
steps. -/
def lineage? (bs : List Blueprint) : Nat → Blueprint → Option (List Blueprint)
  | 0, _ => none
  | fuel + 1, b =>
    if b.template.parent = "" then some [b]
    else
      match find? bs b.template.parent with
      | none => none
      | some p => (lineage? bs fuel p).map (b :: ·)

/-- The whole chain: one that ends has no more members than there are templates. -/
def chain? (bs : List Blueprint) (b : Blueprint) : Option (List Blueprint) :=
  lineage? bs bs.length b

def checkParent (bs : List Blueprint) (b : Blueprint) : Except TemplateFault Unit :=
  let t := b.template
  if t.parent = "" || (find? bs t.parent).isSome then .ok ()
  else .error (.noParent t.name t.parent)

def checkChain (bs : List Blueprint) (b : Blueprint) : Except TemplateFault Unit :=
  if (chain? bs b).isSome then .ok () else .error (.cycle b.template.name)

/-- Parses templates and checks that their parents exist and have no cycle. -/
def compileAll (ts : List Template) : Except TemplateFault (List Blueprint) := do
  let bs ← prepareAll [] ts
  bs.forM (checkParent bs)
  bs.forM (checkChain bs)
  return bs

end Template

inductive ExpandFault where
  | params (template : String) (missing extra : List String)
  | failed (template : String) (f : Fault)
  | notDict (template : String)
  | badKey (template : String) (key : Datum)
  deriving Inhabited

namespace ExpandFault

def problems (missing extra : List String) : List String :=
  let list := fun (what : String) (names : List String) =>
    if names.isEmpty then [] else [what ++ ", ".intercalate (names.mergeSort (· ≤ ·))]
  list "missing params " missing ++ list "extra params " extra

def message (fault : ExpandFault) : String :=
  match fault with
  | .params t missing extra =>
    "template " ++ t ++ ": " ++ "; ".intercalate (problems missing extra)
  | .failed t f => "template " ++ t ++ ": " ++ f.summary
  | .notDict t => "template " ++ t ++ ": result must be a dict"
  | .badKey t key => "template " ++ t ++ ": key " ++ key.plain ++ " must be a symbol or string"

end ExpandFault

abbrev ExpandM := ExceptT ExpandFault (StateM World)

namespace Template

def checkParams (t : Template) (params : List (String × Value)) : ExpandM Unit :=
  let given := params.map (·.1)
  let missing := t.required.filter (!given.contains ·)
  let extra := given.filter fun name => !t.required.contains name && !t.optional.contains name
  if missing.isEmpty && extra.isEmpty then pure () else throw (.params t.name missing extra)

/-- Evaluates a template with its parameters bound in a new scope. -/
def runBody (b : Blueprint) (params : List (String × Value)) : ExpandM Value := fun w =>
  let act : EvalM Value := do
    let s ← EvalM.newScope Heap.builtinScope
    EvalM.modifyHeap (·.bindAll s params)
    EvalM.eval b.body s
  match act.run w with
  | (.ok v, w) => (.ok v, w)
  | (.error f, w) => (.error (.failed b.template.name f), w)

def namedEntries (t : Template) (h : Heap) :
    List (Value × Value) → Except ExpandFault (List (String × Value))
  | [] => .ok []
  | (k, v) :: rest => do
    let name ←
      match k with
      | .atom (.sym s) | .atom (.str s) => .ok s
      | k => .error (.badKey t.name (h.datum k))
    return (name, v) :: (← namedEntries t h rest)

/-- One template: from its parameters to the entries of its result. -/
def expandOne (b : Blueprint) (params : List (String × Value)) :
    ExpandM (List (String × Value)) := do
  b.template.checkParams params
  match ← runBody b params with
  | .dict r =>
    let heap := (← get).heap
    match namedEntries b.template heap (heap.entries r) with
    | .ok fields => return Keyed.ofEntries fields
    | .error f => throw f
  | _ => throw (.notDict b.template.name)

/-- A template and its ancestors, each with the result of the one before. -/
def expand : List Blueprint → List (String × Value) → ExpandM (List (String × Value))
  | [], params => pure params
  | b :: bs, params => do
    let fields ← expandOne b params
    expand bs fields

end Template

inductive RuleFault where
  | unnamed
  | missing (rule : String) (field : RuleField)
  | duplicate (rule : String)
  | paramsOnly (rule : String)
  | noTemplate (rule template : String)
  | codeWithTemplate (rule : String)
  | badParam (rule param : String) (e : ParseError)
  | expansion (rule : String) (f : ExpandFault)
  | unknownField (rule template field : String)
  deriving Inhabited

namespace RuleFault

def message : RuleFault → String
  | .unnamed => "name is required"
  | .missing rule field => rule ++ ": " ++ field.name ++ " is required"
  | .duplicate rule => "duplicate name " ++ rule
  | .paramsOnly rule => rule ++ ": params without a template"
  | .noTemplate rule template => rule ++ ": no template " ++ template
  | .codeWithTemplate rule => rule ++ ": a rule with a template takes only params"
  | .badParam rule param e => rule ++ ": param " ++ param ++ ": " ++ e.text
  | .expansion rule f => rule ++ ": " ++ f.message
  | .unknownField rule template field =>
    rule ++ ": template " ++ template ++ ": unknown field " ++ field

end RuleFault

namespace Rule

def parseParams (r : Rule) : Except RuleFault (List (String × Datum)) :=
  (r.params.getD []).mapM fun (name, code) =>
    match Source.parse? { name := "[" ++ r.name ++ ".params." ++ name ++ "]", code } with
    | .error e => .error (.badParam r.name name e)
    | .ok [e] => .ok (name, .ofExpr e)
    | .ok es => .ok (name, .list (.sym "do" :: Datum.ofExprs es))

def computeFields (r : Rule) (chain : List Blueprint) (params : List (String × Datum)) :
    Except RuleFault (List (String × String)) :=
  let act : ExpandM (List (String × Value)) := do
    let bound ← params.mapM fun (name, d) =>
      return (name, ← modifyGet fun w =>
        let (v, heap) := w.heap.thaw d
        (v, { w with heap }))
    Template.expand chain bound
  match act.run World.initial with
  | (.error f, _) => .error (.expansion r.name f)
  | (.ok fields, w) =>
    match fields.mapM fun (name, v) => (w.heap.datum? v).map fun d => (name, d.serialize) with
    | some texts => .ok texts
    | none => .error (.expansion r.name (.failed r.template .exhausted))

def fill (r : Rule) : List (String × String) → Except RuleFault Rule
  | [] => .ok r
  | (name, code) :: rest =>
    match RuleField.ofName? name with
    | none => .error (.unknownField r.name r.template name)
    | some f => (r.setCode f code).fill rest

/-- Expands a rule that names a template into one with code. -/
def expand (bs : List Blueprint) (r : Rule) : Except RuleFault Rule := do
  match Template.find? bs r.template with
  | none => .error (.noTemplate r.name r.template)
  | some b =>
    if r.hasCode then .error (.codeWithTemplate r.name)
    else
      let params ← r.parseParams
      let fields ← r.computeFields ((Template.chain? bs b).getD []) params
      { Rule.blank with name := r.name, template := r.template }.fill fields

/-- A rule must have a name, an initial accumulator and a way to change it. -/
def check (r : Rule) : Except RuleFault Unit :=
  if r.name = "" then .error .unnamed
  else if r.code .getTally = "" then .error (.missing r.name .getTally)
  else if r.code .handleChange = "" then .error (.missing r.name .handleChange)
  else .ok ()

/-- One rule of a file, after the rules named `seen`: expanded, checked and with defaults. -/
def complete (bs : List Blueprint) (seen : List String) (r : Rule) : Except RuleFault Rule := do
  let r ←
    if r.template != "" then r.expand bs
    else if r.params.isSome then .error (.paramsOnly r.name)
    else .ok r
  r.check
  if seen.contains r.name then .error (.duplicate r.name)
  return r.withDefaults

end Rule

end EventTally
