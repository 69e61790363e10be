import EventTally.Tally.Template
import EventTally.Text.Bytes
import EventTally.Yaml.Reader

/-! # Rule files

A rule file is a YAML document with templates and rules. What does not fit is collected, so that a
file is refused with all its misfits at once. A null leaves a field as it is and is dropped from a
list.
-/

namespace EventTally

/-- Something in a document that does not fit the form of a rule file. -/
inductive Misfit where
  | unknownField (line : Nat) (field form : String)
  | repeatedKey (line : Nat) (key : String) (first : Nat)
  | scalar (line : Nat) (tag : Yaml.Tag) (text form : String)
  | seq (line : Nat) (form : String)
  | map (line : Nat) (form : String)
  deriving DecidableEq, Repr, Inhabited

namespace Misfit

def excerpt (text : String) : String :=
  let cs := text.toList
  if 10 < Text.byteLength cs then String.ofList (Text.cut cs 0 7) ++ "..." else text

def message : Misfit → String
  | .unknownField line field form =>
    "line " ++ toString line ++ ": field " ++ field ++ " not found in type " ++ form
  | .repeatedKey line key first =>
    "line " ++ toString line ++ ": mapping key " ++ Text.mention key ++ " already defined at line "
      ++ toString first
  | .scalar line tag text form =>
    "line " ++ toString line ++ ": cannot unmarshal " ++ tag.name ++ " `" ++ excerpt text
      ++ "` into " ++ form
  | .seq line form => "line " ++ toString line ++ ": cannot unmarshal !!seq into " ++ form
  | .map line form => "line " ++ toString line ++ ": cannot unmarshal !!map into " ++ form

end Misfit

structure RuleFile where
  templates : List Template
  rules : List Rule
  deriving Inhabited

abbrev FitM := StateM (List Misfit)

namespace RuleFile

def note (m : Misfit) : FitM Unit := modify (· ++ [m])

def misfit (form : String) : Yaml.Node → Misfit
  | .scalar line tag text => .scalar line tag text form
  | .seq line _ => .seq line form
  | .map line _ => .map line form

/-- The text of a node that should be a string; none for a null or a misfit. -/
def readText : Yaml.Node → FitM (Option String)
  | .scalar _ .null _ => return none
  | .scalar _ _ text => return some text
  | node => do
    note (misfit "string" node)
    return none

def repeatedKeys : List (Yaml.Node × Yaml.Node) → List Misfit
  | [] => []
  | (key, _) :: rest =>
    let same := rest.filterMap fun (other, _) =>
      match key, other with
      | .scalar first _ a, .scalar line _ b =>
        if a = b then some (Misfit.repeatedKey line a first) else none
      | .seq first _, .seq line _ | .map first _, .map line _ =>
        some (Misfit.repeatedKey line "" first)
      | _, _ => none
    same ++ repeatedKeys rest

/-- The elements of a node that should be a list, those that are there. -/
def readList (form : String) (read : Yaml.Node → FitM (Option α)) :
    Yaml.Node → FitM (Option (List α))
  | .scalar _ .null _ => return none
  | .seq _ elems => do return some (← elems.filterMapM read)
  | node => do
    note (misfit form node)
    return none

/-- Reads the entries of a mapping with fixed fields into a structure. -/
def readFields (field : α → String → Yaml.Node → Option (FitM α)) (form : String) (a : α) :
    List (Yaml.Node × Yaml.Node) → FitM α
  | [] => return a
  | (key, value) :: rest => do
    match ← readText key with
    | none => readFields field form a rest
    | some name =>
      match field a name value with
      | some read => readFields field form (← read) rest
      | none =>
        note (.unknownField key.line name form)
        readFields field form a rest

/-- A node that should be a mapping with fixed fields; none for a null or a misfit. -/
def readStructure (field : α → String → Yaml.Node → Option (FitM α)) (form : String) (a : α) :
    Yaml.Node → FitM (Option α)
  | .scalar _ .null _ => return none
  | .map _ entries =>
    match repeatedKeys entries with
    | [] => do return some (← readFields field form a entries)
    | ms => do
      ms.forM note
      return none
  | node => do
    note (misfit form node)
    return none

/-- The parameters of a rule: names without a value are empty. -/
def readParams : Yaml.Node → FitM (Option (List (String × String)))
  | .scalar _ .null _ => return none
  | .map _ entries =>
    match repeatedKeys entries with
    | [] => do
      return some (← entries.filterMapM fun (key, value) => do
        match ← readText key with
        | none => return none
        | some name =>
          match ← readText value with
          | some text => return some (name, text)
          | none => return if value.isNull then some (name, "") else none)
    | ms => do
      ms.forM note
      return none
  | node => do
    note (misfit "map[string]string" node)
    return none

def templateField (t : Template) (name : String) (value : Yaml.Node) : Option (FitM Template) :=
  let texts := do return (← readList "[]string" readText value).getD []
  match name with
  | "name" => some do return { t with name := (← readText value).getD t.name }
  | "required" => some do return { t with required := ← texts }
  | "optional" => some do return { t with optional := ← texts }
  | "template" => some do return { t with code := (← readText value).getD t.code }
  | "parent" => some do return { t with parent := (← readText value).getD t.parent }
  | _ => none

def ruleField (r : Rule) (name : String) (value : Yaml.Node) : Option (FitM Rule) :=
  match name with
  | "name" => some do return { r with name := (← readText value).getD r.name }
  | "template" => some do return { r with template := (← readText value).getD r.template }
  | "params" => some do return { r with params := ← readParams value }
  | name =>
    (RuleField.ofName? name).map fun f => do
      return r.setCode f ((← readText value).getD (r.code f))

def blankTemplate : Template :=
  { name := "", required := [], optional := [], code := "", parent := "" }

def fileField (file : RuleFile) (name : String) (value : Yaml.Node) : Option (FitM RuleFile) :=
  match name with
  | "templates" => some do
    let read := readStructure templateField "tally.Template" blankTemplate
    return { file with templates := (← readList "[]tally.Template" read value).getD [] }
  | "rules" => some do
    let read := readStructure ruleField "tally.Rule" Rule.blank
    return { file with rules := (← readList "[]tally.Rule" read value).getD [] }
  | _ => none

def empty : RuleFile := { templates := [], rules := [] }

/-- The rule file that a document describes, and what does not fit. -/
def ofNode (node : Yaml.Node) : RuleFile × List Misfit :=
  let (file, misfits) := (readStructure fileField "tally.ruleFile" empty node).run []
  (file.getD empty, misfits)

end RuleFile

/-- Why a rule file is refused. Rules are counted from 1. -/
inductive RuleFileFault where
  | malformed (f : Yaml.Fault)
  | misfits (ms : List Misfit)
  | noRules
  | template (f : TemplateFault)
  | rule (index : Nat) (f : RuleFault)
  deriving Inhabited

namespace RuleFileFault

def message : RuleFileFault → String
  | .malformed f => f.message
  | .misfits ms =>
    "yaml: unmarshal errors:\n  " ++ "\n  ".intercalate (ms.map Misfit.message)
  | .noRules => "no rules"
  | .template f => f.message
  | .rule i f => "rule " ++ toString i ++ ": " ++ f.message

end RuleFileFault

namespace RuleFile

/-- The rules of a file, expanded and complete, after those in `done`. -/
def completeAll (bs : List Blueprint) (done : List Rule) :
    List Rule → Except RuleFileFault (List Rule)
  | [] => .ok done
  | r :: rs =>
    match r.complete bs (done.map (·.name)) with
    | .error f => .error (.rule (done.length + 1) f)
    | .ok r => completeAll bs (done ++ [r]) rs

def complete (file : RuleFile) : Except RuleFileFault (List Rule) :=
  if file.rules.isEmpty then .error .noRules
  else
    match Template.compileAll file.templates with
    | .error f => .error (.template f)
    | .ok bs => completeAll bs [] file.rules

def rulesOf (node : Yaml.Node) : Except RuleFileFault (List Rule) :=
  match ofNode node with
  | (file, []) => file.complete
  | (_, ms) => .error (.misfits ms)

def read (text : String) : Except RuleFileFault (List Rule) :=
  match Yaml.read text with
  | .error f => .error (.malformed f)
  | .ok none => .error .noRules
  | .ok (some node) => rulesOf node

end RuleFile

end EventTally
