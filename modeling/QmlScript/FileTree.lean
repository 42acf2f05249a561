import QmlScript.Table
import QmlScript.Text.Scan
import QmlScript.Text.Quoted

/-!
# File trees

The files that a command works on, as a value. Names are in ascending order; to go on behind a name on a
path, there has to be a directory of that name.
-/

namespace QmlScript.Path

/-! ## Paths: texts of names with slashes between them -/

def segments (path : String) : List String := splitText '/' path

/-- A path inside a directory; one that starts with a slash stays as it is. -/
def join (directory path : String) : String :=
  if startsWithText "/" path then path
  else if directory = "" || endsWithText "/" directory then directory ++ path
  else directory ++ "/" ++ path

def split (path : String) : String × String :=
  match cutLastText? '/' path with
  | none => ("", path)
  | some (front, name) =>
    let kept := (front.toList.reverse.dropWhile (· = '/')).reverse
    (if kept.isEmpty then front ++ "/" else String.ofList kept, name)

def directory (path : String) : String := (split path).1

def name (path : String) : String := (split path).2

/-- The slashes that a path keeps at its head: none, one, or exactly two. -/
def head (path : String) : String :=
  match path.toList with
  | '/' :: '/' :: '/' :: _ => "/"
  | '/' :: '/' :: _ => "//"
  | '/' :: _ => "/"
  | _ => ""

def simplify (rooted : Bool) (before : List String) (segment : String) : List String :=
  if segment = "" || segment = "." then before
  else if segment ≠ ".." then segment :: before
  else
    match before with
    | [] => if rooted then [] else [".."]
    | last :: rest => if last = ".." then ".." :: before else rest

def simplified (path : String) : List String :=
  ((segments path).foldl (simplify (head path ≠ "")) []).reverse

def normalise (path : String) : String :=
  let text := head path ++ joinText "/" (simplified path)
  if text = "" then "." else text

def dropCommon : List String → List String → List String × List String
  | a :: as, b :: bs => if a = b then dropCommon as bs else (a :: as, b :: bs)
  | as, bs => (as, bs)

def relative (path start : String) : String :=
  let (up, down) := dropCommon (simplified start) (simplified path)
  match up.map (fun _ => "..") ++ down with
  | [] => "."
  | way => joinText "/" way

/-- A path cut in front of its extension. Dots at the start of a name start none. -/
def splitExtension (path : String) : String × String :=
  let file := name path
  match cutLastText? '.' file with
  | none => (path, "")
  | some (front, back) =>
    if front.toList.all (· = '.') then (path, "")
    else (String.ofList (path.toList.take (path.length - back.length - 1)), "." ++ back)

end QmlScript.Path

namespace QmlScript

/-- Files and directories. -/
inductive FileTree where
  | file (text : String)
  /-- A directory; its names are in ascending order. -/
  | dir (entries : List (String × FileTree))
  deriving Inhabited

inductive FileProblem where
  | missing
  | present
  | notDirectory
  | isDirectory
  deriving DecidableEq, Repr

structure FileError where
  problem : FileProblem
  path : String
  deriving DecidableEq, Repr

def FileProblem.text : FileProblem → String
  | .missing => "[Errno 2] No such file or directory"
  | .present => "[Errno 17] File exists"
  | .notDirectory => "[Errno 20] Not a directory"
  | .isDirectory => "[Errno 21] Is a directory"

def FileError.message (e : FileError) : String := e.problem.text ++ ": " ++ quotedText e.path

namespace FileTree

def empty : FileTree := .dir []

def isDirectory : FileTree → Bool
  | .dir _ => true
  | .file _ => false

def child? (name : String) : List (String × FileTree) → Option FileTree
  | [] => none
  | (n, tree) :: entries => if n = name then some tree else child? name entries

def setEntry (name : String) (tree : FileTree) : List (String × FileTree) → List (String × FileTree)
  | [] => [(name, tree)]
  | (n, t) :: entries =>
    if n = name then (name, tree) :: entries
    else if textLt name n then (name, tree) :: (n, t) :: entries
    else (n, t) :: setEntry name tree entries

def at? : FileTree → List String → Option FileTree
  | tree, [] => some tree
  | .dir entries, name :: names =>
    match child? name entries with
    | some tree => at? tree names
    | none => none
  | .file _, _ :: _ => none

/-- Put something in a place, where directories lead to. -/
def put : FileTree → List String → FileTree → FileTree
  | _, [], new => new
  | .dir entries, [name], new => .dir (setEntry name new entries)
  | .dir entries, name :: names, new =>
    match child? name entries with
    | some tree => .dir (setEntry name (put tree names new) entries)
    | none => .dir entries
  | .file text, _ :: _, _ => .file text

/-- The names a path leads through behind `place`, all but the last of directories; `..` leads back. -/
def follow (tree : FileTree) : (place : List String) → List String → Except FileProblem (List String)
  | place, [] => .ok place
  | place, segment :: rest =>
    match tree.at? place with
    | none => .error .missing
    | some (.file _) => .error .notDirectory
    | some (.dir _) =>
      if segment = "" || segment = "." then follow tree place rest
      else if segment = ".." then follow tree place.dropLast rest
      else follow tree (place ++ [segment]) rest

/-- The place that a path leads to. -/
def locate (tree : FileTree) (path : String) : Except FileProblem (List String) :=
  if path = "" then .error .missing else follow tree [] (Path.segments path)

def find (tree : FileTree) (path : String) : Except FileProblem FileTree := do
  match tree.at? (← tree.locate path) with
  | some found => return found
  | none => throw .missing

def has (tree : FileTree) (path : String) : Bool := (tree.find path).isOk

def hasDirectory (tree : FileTree) (path : String) : Bool :=
  match tree.find path with
  | .ok found => found.isDirectory
  | .error _ => false

def refuse {α : Type} (path : String) (result : Except FileProblem α) : Except FileError α :=
  result.mapError fun problem => ⟨problem, path⟩

def readExact (tree : FileTree) (path : String) : Except FileError String :=
  refuse path do
    match ← tree.find path with
    | .file text => return text
    | .dir _ => throw .isDirectory

def read (tree : FileTree) (path : String) : Except FileError String := do
  return String.ofList (Text.unifyBreaks (← tree.readExact path).toList)

def list (tree : FileTree) (path : String) : Except FileError (List String) :=
  refuse path do
    match ← tree.find path with
    | .dir entries => return entries.map (·.1)
    | .file _ => throw .notDirectory

/-- Write a file; its directory has to be there. -/
def write (tree : FileTree) (path text : String) : Except FileError FileTree :=
  refuse path do
    let place ← tree.locate path
    match tree.at? place with
    | some (.dir _) => throw .isDirectory
    | some (.file _) => return tree.put place (.file text)
    | none =>
      match tree.at? place.dropLast with
      | some (.dir _) => return tree.put place (.file text)
      | some (.file _) => throw .notDirectory
      | none => throw .missing

def makeDirectory (tree : FileTree) (path : String) : Except FileError FileTree :=
  refuse path do
    let place ← tree.locate path
    match tree.at? place with
    | some _ => throw .present
    | none =>
      match tree.at? place.dropLast with
      | some (.dir _) => return tree.put place empty
      | some (.file _) => throw .notDirectory
      | none => throw .missing

def ensure (tree : FileTree) : (place rest : List String) → Except FileProblem FileTree
  | _, [] => .ok tree
  | place, name :: rest =>
    let place := place ++ [name]
    match tree.at? place with
    | some (.dir _) => ensure tree place rest
    | some (.file _) => .error (if rest.isEmpty then .present else .notDirectory)
    | none => ensure (tree.put place empty) place rest

def makeDirectories (tree : FileTree) (path : String) : Except FileError FileTree :=
  refuse path (tree.ensure [] (Path.simplified path))

mutual

/-- A tree laid over another: files are replaced, directories are merged. -/
def overlay (old : FileTree) : FileTree → FileTree
  | .file text => .file text
  | .dir entries =>
    match old with
    | .file _ => .dir (overlayEntries [] entries)
    | .dir kept => .dir (overlayEntries kept entries)

def overlayEntries (kept : List (String × FileTree)) :
    List (String × FileTree) → List (String × FileTree)
  | [] => kept
  | (name, tree) :: entries =>
    let old := (child? name kept).getD empty
    overlayEntries (setEntry name (overlay old tree) kept) entries

end

def copyInto (tree : FileTree) (source target : String) : Except FileError FileTree := do
  let new ← refuse source (tree.find source)
  let place ← refuse target (tree.locate target)
  let old ← refuse target (tree.find target)
  return tree.put place (overlay old new)

structure Visit where
  path : String
  files : List String

def fileNames (entries : List (String × FileTree)) : List String :=
  entries.filterMap fun (name, tree) => if tree.isDirectory then none else some name

mutual

/-- The directories of a tree from the top. `enter` is asked with the files beside a directory and its name. -/
def visits (enter : List String → String → Bool) (path : String) : FileTree → List Visit
  | .file _ => []
  | .dir entries =>
    { path, files := fileNames entries } :: visitsIn enter path (fileNames entries) entries

def visitsIn (enter : List String → String → Bool) (path : String) (files : List String) :
    List (String × FileTree) → List Visit
  | [] => []
  | (name, tree) :: entries =>
    (if enter files name then visits enter (Path.join path name) tree else []) ++
      visitsIn enter path files entries

end

/-- All directories below a path that are entered. -/
def walk (tree : FileTree) (enter : List String → String → Bool) (path : String) : List Visit :=
  match tree.find path with
  | .ok found => visits enter path found
  | .error _ => []

mutual

def filesFrom (path : String) : FileTree → List (String × String)
  | .file text => [(path, text)]
  | .dir entries => filesIn path entries

def filesIn (path : String) : List (String × FileTree) → List (String × String)
  | [] => []
  | (name, tree) :: entries => filesFrom (Path.join path name) tree ++ filesIn path entries

end

def files (tree : FileTree) : List (String × String) := filesFrom "" tree

def changes (before after : FileTree) : List (String × String) :=
  after.files.filter fun (path, text) =>
    match before.readExact path with
    | .ok old => old ≠ text
    | .error _ => true

end FileTree

/-! ## Work on files: it may fail on the way, and what was written before stays written -/

abbrev FileWork (ε : Type) := ExceptT ε (StateM FileTree)

namespace FileWork

variable {ε : Type} [Coe FileError ε]

def look {α : Type} (f : FileTree → Except FileError α) : FileWork ε α := do
  match f (← get) with
  | .ok a => return a
  | .error e => throw (e : ε)

def change (f : FileTree → Except FileError FileTree) : FileWork ε Unit := do
  set (← look f)

def write (path text : String) : FileWork ε Unit := change fun tree => tree.write path text

def makeDirectory (path : String) : FileWork ε Unit := do
  unless (← get).has path do change fun tree => tree.makeDirectory path

def makeDirectories (path : String) : FileWork ε Unit := do
  unless (← get).has path do change fun tree => tree.makeDirectories path

end FileWork
end QmlScript
