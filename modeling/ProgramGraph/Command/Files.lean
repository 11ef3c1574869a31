import ProgramGraph.Table

/-! Text files under their paths, as the system opens them. -/
namespace ProgramGraph.Command

/-- What stands between the slashes of a path. -/
def parts (path : String) : List String := (path.toList.splitOn '/').map String.ofList

/-- Whether a part of a path names an entry of a directory. -/
def isName (part : String) : Bool := part ≠ "" && part ≠ "." && part ≠ ".."

/-- The place that a place lies in; the root lies in itself. -/
def parent (place : String) : String := "/".intercalate (parts place).dropLast

/-- The place that a part of a path leads to. -/
def enter (place part : String) : String :=
  if isName part then place ++ "/" ++ part
  else if part = ".." then parent place
  else place

/-- Why the system does not open a file, or does not read it. -/
inductive AccessError where
  | missing
  | notDirectory
  | writesDirectory
  | readsDirectory
deriving DecidableEq

namespace AccessError

def code : AccessError → String
  | missing => "ENOENT"
  | notDirectory => "ENOTDIR"
  | writesDirectory | readsDirectory => "EISDIR"

def text : AccessError → String
  | missing => "no such file or directory"
  | notDirectory => "not a directory"
  | writesDirectory | readsDirectory => "illegal operation on a directory"

/-- What the system says of a path. A directory is opened, and then cannot be read. -/
def message (path : String) : AccessError → String
  | readsDirectory => readsDirectory.code ++ ": " ++ readsDirectory.text ++ ", read"
  | e => e.code ++ ": " ++ e.text ++ ", open '" ++ path ++ "'"

end AccessError

inductive Entry where
  | text (s : String)
  | directory
deriving DecidableEq

/-- A file tree with the place that relative paths start from. Places are written from the root,
which is the empty text, with a slash before each name. -/
structure Files where
  here : String := ""
  entries : Table Entry

namespace Files

def start (f : Files) (path : String) : String := if path.startsWith "/" then "" else f.here

/-- Put an entry where parts of a path lead to, and directories on the way. -/
def put (e : Entry) (t : Table Entry) (place : String) : List String → Table Entry
  | [] => t.insert place e
  | part :: rest => put e (t.insert place .directory) (enter place part) rest

def ofList (texts : List (String × String)) (directories : List String := [])
    (here : String := "") : Files :=
  let add (e : Entry) (f : Files) (path : String) : Files :=
    { f with entries := put e f.entries (f.start path) (parts path) }
  texts.foldl (fun f (path, s) => add (.text s) f path)
    (directories.foldl (add .directory) ⟨here, ∅⟩)

/-- The texts under their paths as seen from where relative paths start. -/
def toList (f : Files) : List (String × String) :=
  let before := f.here ++ "/"
  let seen (place : String) : String :=
    if place.startsWith before then String.ofList (place.toList.drop before.length) else place
  f.entries.toList.filterMap fun (place, e) =>
    match e with
    | .text s => some (seen place, s)
    | .directory => none

/-- What is at a place. The root is always there. -/
def entry? (f : Files) (place : String) : Option Entry :=
  if place = "" then some .directory else f.entries.get? place

/-- Follow parts of a path, each from the directory that the ones before lead to. -/
def walk (f : Files) (place : String) : List String → Except AccessError String
  | [] => .ok place
  | part :: rest =>
    if isName part then
      match f.entry? (enter place part) with
      | none => .error .missing
      | some (.text _) => .error .notDirectory
      | some .directory => f.walk (enter place part) rest
    else f.walk (enter place part) rest

/-- The parts of a path up to the slashes at its end. -/
def stem (path : String) : List String := ((parts path).reverse.dropWhile (· = "")).reverse

/-- The text under a path. A path that does not end in a name is one of a directory. -/
def read (f : Files) (path : String) : Except AccessError String :=
  if path = "" then .error .missing
  else do
    let name := (parts path).getLastD ""
    if isName name then
      let place := enter (← f.walk (f.start path) (parts path).dropLast) name
      match f.entry? place with
      | none => .error .missing
      | some .directory => .error .readsDirectory
      | some (.text s) => .ok s
    else
      let _ ← f.walk (f.start path) (parts path)
      .error .readsDirectory

def read? (f : Files) (path : String) : Option String := (f.read path).toOption

/-- The place where a text under a path is written. A path with a slash at its end is one of a
directory, even if nothing is there. -/
def target (f : Files) (path : String) : Except AccessError String :=
  if path = "" then .error .missing
  else do
    let name := (stem path).getLastD ""
    if isName name then
      let place := enter (← f.walk (f.start path) (stem path).dropLast) name
      if (parts path).getLastD "" = "" ∨ f.entry? place = some .directory then
        .error .writesDirectory
      else .ok place
    else
      let _ ← f.walk (f.start path) (stem path)
      .error .writesDirectory

def write (f : Files) (path text : String) : Except AccessError Files := do
  return { f with entries := f.entries.insert (← f.target path) (.text text) }

end Files

/-- Whether a path names a program: its last step is more than the extension `.py`. -/
def isProgram (path : String) : Bool :=
  let name := (parts path).getLastD ""
  name.endsWith ".py" && 3 < name.length

end ProgramGraph.Command
