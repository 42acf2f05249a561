import QmlScript.Compile.Error

/-!
# Projects

The package of a file is the package that the file is in, and behind it the directories that lead to it. A
manifest may name a package, which then starts in its directory; the walk leaves it at a directory that is not
inside of it.
-/

namespace QmlScript.Compile

structure Naming where
  directory : String
  name : Json

def projectName (project : String) : String := ((Path.segments project).getLast?).getD ""

def Naming.ofProject (project : String) : Naming := { directory := project, name := .str (projectName project) }

/-- The package a walk through a project starts in. The manifest may name that of a project at the top. -/
def Naming.start (project : String) (package : Json) : Naming :=
  if package.isTruthy && (Path.segments project).length ≤ 1 then
    { directory := project, name := .str package.display }
  else .ofProject project

def Naming.enter (naming : Naming) (directory : String) (package : Json) : Naming :=
  if package.isTruthy then { directory, name := package } else naming

/-- The package of files of a directory: the current one, or that of the project if the directory is outside of it. -/
def Naming.at (naming : Naming) (project directory : String) : Naming :=
  if startsWithText ".." (Path.relative directory naming.directory) then .ofProject project else naming

def Naming.packageOf (naming : Naming) (directory : String) : Except BuildError String :=
  match naming.name with
  | .str name =>
    let way := Path.relative directory naming.directory
    .ok (joinText "." (name :: if way = "." then [] else Path.segments way))
  | other => .error (.kind (.notJoinable 0 other.kind))

inductive Task where
  /-- Compile a source; names of components start with a capital letter. -/
  | source (name path : String) (isComponent : Bool)
  | script (name path : String)
  | catalog (path : String)
  deriving DecidableEq, Repr

def startsIn (isIn : Char → Bool) (name : String) : Bool := (name.toList.head?.map isIn).getD false

/-- What to do with a file of a package. Of sources with small names only the application is compiled. -/
def task? (app package directory file : String) : Option Task :=
  let (name, extension) := Path.splitExtension file
  let full := package ++ "." ++ name
  let path := Path.join directory file
  if startsWithText "." name then none
  else if extension = ".qml" then
    if startsIn Text.isSmall name && app ≠ name then none
    else some (.source full path (startsIn Text.isCapital name))
  else if extension = ".js" then some (.script full path)
  else if extension = ".ts" then some (.catalog path)
  else none

def noCompileFile : String := ".nocompile"

def manifestFile : String := ".manifest"

def entersDirectory (files : List String) (name : String) : Bool :=
  !files.contains noCompileFile && !startsWithText "build." name && name ≠ "dist"

def visits (tree : FileTree) (project : String) : List FileTree.Visit :=
  (tree.walk entersDirectory project).filter fun visit => !visit.files.contains noCompileFile

def readManifest (tree : FileTree) (path : String) : Except BuildError Manifest := do
  let text ← (tree.read path).mapError .file
  match Manifest.read text with
  | .ok manifest => return manifest
  | .error (.malformed fault) => throw (.json text fault)
  | .error (.number fault) => throw (.number fault)
  | .error (.refused cause) => throw (.setting cause)

def readPackage (tree : FileTree) (directory : String) : Except BuildError (Manifest × Json) := do
  let manifest ← readManifest tree (Path.join directory manifestFile)
  return (manifest, ← manifest.package.mapError .setting)

def elements (value : Json) : Except KindError (List Json) :=
  match value with
  | .arr items => .ok items
  | .obj fields => .ok (fields.map fun (key, _) => .str key)
  | .str s => .ok (s.toList.map fun c => .str (String.singleton c))
  | other => .error (.notIterable other.kind)

def checkHashable (value : Json) : Except KindError Unit :=
  match value with
  | .arr _ => .error (.notHashable value.kind)
  | .obj _ => .error (.notHashable value.kind)
  | _ => .ok ()

/-- Whether a package names none of the platforms, or one of these. -/
def isForPlatforms (useOnlyFor : Json) (platforms : List String) : Except KindError Bool := do
  if useOnlyFor.isTruthy then
    let names ← elements useOnlyFor
    for name in names do checkHashable name
    return names.any fun | .str name => platforms.contains name | _ => false
  else return true

def isCompiledFor (platforms : List String) (manifest : Manifest) : Bool :=
  match manifest.useOnlyFor with
  | .ok useOnlyFor => (isForPlatforms useOnlyFor platforms).toOption.getD false
  | .error _ => false

inductive Step where
  | manifest (manifest : Manifest)
  | file (package directory name : String)
  | stop (cause : BuildError)

structure Station where
  path : String
  package : Json := .null
  before : List Step := []
  files : List String

def station (platforms : List String) (tree : FileTree) (visit : FileTree.Visit) : Station :=
  if visit.files.contains manifestFile then
    match readPackage tree visit.path with
    | .error cause => { path := visit.path, before := [.stop cause], files := [] }
    | .ok (manifest, package) =>
      let files := if isCompiledFor platforms manifest then visit.files else []
      { path := visit.path, package, before := [.manifest manifest], files }
  else { path := visit.path, files := visit.files }

def stations (platforms : List String) (tree : FileTree) (project : String) : List Station :=
  (visits tree project).map (station platforms tree)

def Naming.pass (project : String) (naming : Naming) (station : Station) : Naming :=
  let naming := naming.enter station.path station.package
  if station.files.isEmpty then naming else naming.at project station.path

def Station.steps (station : Station) (naming : Naming) : List Step :=
  station.before ++
    match naming.packageOf station.path with
    | .ok package => station.files.map (Step.file package station.path)
    | .error cause => if station.files.isEmpty then [] else [.stop cause]

/-- What to do on a walk that starts in a package; nothing behind a step that gives up. -/
def plan (project : String) (naming : Naming) : List Station → List Step
  | [] => []
  | station :: stations =>
    let naming := naming.pass project station
    station.steps naming ++ plan project naming stations

end QmlScript.Compile
