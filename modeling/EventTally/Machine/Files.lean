import EventTally.Machine.Path
import EventTally.Store.Basic

/-! # Files

A tree of files below one directory, and the directory in which relative paths start. A path is
found by going through its parts, each of which but the last must be a directory.
-/

namespace EventTally

inductive Content where
  | text (s : String)
  /-- Bytes that are no text. -/
  | binary (bytes : List UInt8)
  | database (s : Store)
  deriving DecidableEq, Inhabited

inductive FileEntry where
  | directory
  | file (c : Content)
  deriving Inhabited

inductive PathCause where
  | absent
  | notDirectory
  | isDirectory
  | occupied
  | invalidDatabase
  deriving DecidableEq, Repr, Inhabited

structure FileFault where
  operation : String
  path : String
  cause : PathCause
  deriving DecidableEq, Repr, Inhabited

namespace FileFault

def message (f : FileFault) : String :=
  let at_ := f.operation ++ " " ++ f.path ++ ": "
  match f.cause with
  | .absent => at_ ++ "no such file or directory"
  | .notDirectory => at_ ++ "not a directory"
  | .isDirectory => at_ ++ "is a directory"
  | .occupied => at_ ++ "file exists"
  | .invalidDatabase => "invalid database"

end FileFault

structure Files where
  /-- The name of the top directory. -/
  top : String
  /-- All entries below the top by their parts; the directories of an entry are entries too. -/
  entries : List (List String × FileEntry)
  /-- The current directory, from the top. -/
  current : List String
  deriving Inhabited

namespace Files

def empty (top : String) : Files := { top, entries := [], current := [] }

def entry? (fs : Files) (place : List String) : Option FileEntry :=
  if place.isEmpty then some .directory else fs.entries.lookup place

/-- Goes from a place through the parts of a path. Every place that is left must be a directory;
nothing above the top is reached. -/
def walk (fs : Files) : List String → List String → Except PathCause (List String)
  | here, [] => .ok here
  | here, part :: rest =>
    match fs.entry? here with
    | some .directory =>
      if part = "." then fs.walk here rest
      else if part = ".." then
        if here.isEmpty then .error .absent else fs.walk here.dropLast rest
      else fs.walk (here ++ [part]) rest
    | some (.file _) => .error .notDirectory
    | none => .error .absent

/-- The place that a path names, at which there may be nothing. -/
def locate (fs : Files) (path : String) : Except PathCause (List String) :=
  if path = "" then .error .absent
  else if path = fs.top then .ok []
  else if (fs.top ++ "/").isPrefixOf path then
    fs.walk [] (Path.parts (String.ofList (path.toList.drop (fs.top.length + 1))))
  else if Path.isAbsolute path then .error .absent
  else fs.walk fs.current (Path.parts path)

/-- What a path leads to. A slash at its end asks for a directory. -/
def stat (fs : Files) (path : String) : Except PathCause FileEntry := do
  match fs.entry? (← fs.locate path) with
  | some (.file c) => if path.endsWith "/" then .error .notDirectory else .ok (.file c)
  | some .directory => .ok .directory
  | none => .error .absent

def put (fs : Files) (ps : List String) (e : FileEntry) : Files :=
  { fs with entries := (ps, e) :: fs.entries.filter (·.1 != ps) }

def read (fs : Files) (path : String) : Except FileFault Content :=
  match fs.stat path with
  | .ok (.file c) => .ok c
  | .ok .directory => .error { operation := "read", path, cause := .isDirectory }
  | .error cause => .error { operation := "open", path, cause }

/-- Sets the content of a file, which is made if its directory exists. -/
def write (fs : Files) (path : String) (c : Content) : Except FileFault Files :=
  let fault := fun cause => .error { operation := "open", path, cause }
  match fs.locate path with
  | .error cause => fault cause
  | .ok place =>
    match path.endsWith "/", fs.entry? place with
    | false, some (.file _) | false, none => .ok (fs.put place (.file c))
    | _, _ => fault .isDirectory

def makeDirectory (fs : Files) (path : String) : Except FileFault Files :=
  let fault := fun cause => .error { operation := "mkdir", path, cause }
  match fs.stat path, fs.locate path with
  | .ok .directory, _ => .ok fs
  | .ok (.file _), _ => fault .notDirectory
  | .error _, .error cause => fault cause
  | .error _, .ok place =>
    if (fs.entry? place).isSome then fault .occupied else .ok (fs.put place .directory)

def makeDirectories (fs : Files) (path : String) : Except FileFault Files :=
  (Path.waypoints path).foldlM makeDirectory fs

def writeDeep (fs : Files) (path : String) (c : Content) : Except FileFault Files := do
  let fs ← fs.makeDirectories (Path.directory path)
  fs.write path c

def enter (fs : Files) (path : String) : Except FileFault Files :=
  match fs.stat path with
  | .ok .directory =>
    match fs.locate path with
    | .ok place => .ok { fs with current := place }
    | .error cause => .error { operation := "chdir", path, cause }
  | .ok (.file _) => .error { operation := "chdir", path, cause := .notDirectory }
  | .error cause => .error { operation := "chdir", path, cause }

def currentPath (fs : Files) : String := "/".intercalate (fs.top :: fs.current)

def absolute (fs : Files) (path : String) : String :=
  if Path.isAbsolute path then Path.clean path else Path.join [fs.currentPath, path]

/-- All entries, a directory before what is in it and with a slash at its end. -/
def list (fs : Files) : List String :=
  (fs.entries.mergeSort fun a b => Path.precedes a.1 b.1).map fun (ps, e) =>
    "/".intercalate ps ++ match e with
      | .directory => "/"
      | .file _ => ""

/-- The store in a file. A missing or empty file becomes an empty store. -/
def openStore (fs : Files) (path : String) : Except FileFault (Store × Files) := do
  let fs ← fs.makeDirectories (Path.directory path)
  match fs.stat path with
  | .ok (.file (.database s)) => return (s, fs)
  | .ok (.file (.text "")) | .error .absent =>
    return (Store.empty, ← fs.write path (.database Store.empty))
  | .ok (.file _) => .error { operation := "open", path, cause := .invalidDatabase }
  | .ok .directory => .error { operation := "open", path, cause := .isDirectory }
  | .error cause => .error { operation := "open", path, cause }

end Files

end EventTally
