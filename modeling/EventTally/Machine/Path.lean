/-! # Paths

Paths are texts with parts separated by slashes. A clean path has no empty parts, no part `.`, and
`..` only at its start.
-/

namespace EventTally.Path

def isAbsolute (path : String) : Bool := path.toList.head? == some '/'

def parts (path : String) : List String := (path.splitOn "/").filter (· != "")

/-- Resolves `.` and `..` among parts; `done` is the path so far, last part first. Above the root
there is nothing, above a relative path there may be. -/
def resolve (absolute : Bool) : List String → List String → List String
  | done, [] => done.reverse
  | done, "." :: rest => resolve absolute done rest
  | [], ".." :: rest => resolve absolute (if absolute then [] else [".."]) rest
  | d :: done, ".." :: rest =>
    if d = ".." then resolve absolute (".." :: d :: done) rest else resolve absolute done rest
  | done, p :: rest => resolve absolute (p :: done) rest

def ofParts (absolute : Bool) (ps : List String) : String :=
  if absolute then "/" ++ "/".intercalate ps
  else if ps.isEmpty then "."
  else "/".intercalate ps

def clean (path : String) : String :=
  let absolute := isAbsolute path
  ofParts absolute (resolve absolute [] (parts path))

def join (paths : List String) : String :=
  match paths.filter (· != "") with
  | [] => ""
  | ps => clean ("/".intercalate ps)

def directory (path : String) : String :=
  let before := path.toList.reverse.dropWhile (· != '/')
  clean (String.ofList before.reverse)

/-- The order of places by their parts, in which a directory comes before what is in it. -/
def precedes : List String → List String → Bool
  | [], _ => true
  | _ :: _, [] => false
  | p :: ps, q :: qs => p < q || (p = q && precedes ps qs)

/-- The paths on the way to the end of a path, each up to the slash before the next part, and at last
the path itself; `before` is what has been passed, last character first. -/
def waypointsFrom (before : List Char) : List Char → List String
  | [] => [String.ofList before.reverse]
  | c :: cs =>
    let later := waypointsFrom (c :: before) cs
    if c = '/' && !cs.isEmpty && cs.head? != some '/' then
      String.ofList (c :: before).reverse :: later
    else later

def waypoints (path : String) : List String := waypointsFrom [] path.toList

end EventTally.Path
