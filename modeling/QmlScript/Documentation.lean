import QmlScript.Documentation.Page
import QmlScript.FileTree
import QmlScript.Json.Writer

/-!
# Documentation

Documentation is a directory of JSON files: a page for each component, a list of pages for each package,
and a table of contents. Each page is also noted once more under its bare name, in the package that the
name without its last letter spells.
-/

namespace QmlScript

namespace Documentation

inductive Subject where
  | component (tree : Tree)
  /-- Another page, which declares nothing. -/
  | page

structure Page where
  package : String
  name : String
  subject : Subject

inductive WriteError where
  | file (cause : FileError)
  | noDeclarations
  deriving DecidableEq, Repr

instance : Coe FileError WriteError := ⟨.file⟩

/-- A name cut at its last dot. Without a dot, all letters but the last are the package. -/
def splitName (name : String) : String × String :=
  match cutLastText? '.' name with
  | some parts => parts
  | none => (String.ofList name.toList.dropLast, name)

def Page.text (paths : PathMap) (page : Page) : Except WriteError String :=
  match page.subject with
  | .component (.component doc _ body) =>
    .ok <| Json.layout 4 <| Json.sortKeys <| .obj
      [("name", .str (page.package ++ "." ++ page.name)), ("text", .str (docText doc)),
        ("content", content paths body)]
  | _ => .error .noDeclarations

def pageFile (package name : String) : String := package ++ "/" ++ name ++ ".json"

def fileText (value : Json) : String := Json.layout 4 (Json.sortKeys value)

end Documentation

structure Documentation where
  root : String
  packages : Table String (Table String Documentation.Page) := {}

namespace Documentation

def pageRoot (d : Documentation) : String := Path.join d.root "json"

def add (d : Documentation) (name : String) (subject : Subject) : Documentation :=
  let (package, name) := splitName name
  let pages := (d.packages.get? package).getD {}
  { d with packages := d.packages.insert package (pages.insert name { package, name, subject }) }

def addTree (d : Documentation) (name : String) (tree : Tree) : Documentation :=
  d.add name (.component tree)

def modify (d : Documentation) (name : String) (f : Tree → Tree) : Documentation :=
  let (package, name) := splitName name
  match (d.packages.get? package).bind (·.get? name) with
  | some { subject := .component tree, .. } => d.addTree (package ++ "." ++ name) (f tree)
  | _ => d

def amend (d : Documentation) (name amendment : Option String) : Documentation :=
  match name, amendment with
  | some name, some text => d.modify name (Node.setDoc (some text))
  | _, _ => d

def writePages (paths : PathMap) (package : String) (d : Documentation) :
    List (String × Page) → FileWork WriteError Documentation
  | [] => return d
  | (name, page) :: pages => do
    let d := d.add name .page
    let file := Path.join (Path.join d.pageRoot package) (name ++ ".json")
    FileWork.write file ""
    match page.text paths with
    | .ok text => FileWork.write file text
    | .error e => throw e
    writePages paths package d pages

def pageList (package : String) (pages : List (String × Page)) : Json :=
  .obj (pages.map fun (name, _) => (name, .str (pageFile package name)))

/-- Write pages and a list for each package; the result is the table of contents. -/
def writePackages (paths : PathMap) (d : Documentation) :
    List String → FileWork WriteError (List (String × Json) × Documentation)
  | [] => return ([], d)
  | package :: packages => do
    FileWork.makeDirectory (Path.join d.pageRoot package)
    let pages := ((d.packages.get? package).getD {}).entries
    let d' ← writePages paths package d pages
    FileWork.write (Path.join d.pageRoot (package ++ ".json"))
      (fileText (.obj [(package, pageList package pages)]))
    let (others, d') ← writePackages paths d' packages
    let entry := Json.obj [("file", .str (package ++ ".json")), ("content", pageList package pages)]
    return ((package, entry) :: others, d')

def contents (pages : List (String × Json)) : Json :=
  .obj [("site_name", .str "QML Documentation"), ("use_directory_urls", .bool false),
    ("docs_dir", .str "."), ("site_dir", .str "../html"),
    ("repo_url", .str "https://github.com/pureqml/qmlcore/"), ("pages", .obj pages)]

def write (paths : PathMap) (d : Documentation) : FileWork WriteError Documentation := do
  FileWork.makeDirectories d.pageRoot
  FileWork.write (Path.join d.root ".nocompile") ""
  let (pages, d) ← writePackages paths d (orderedSet textLt d.packages.keys)
  FileWork.write (Path.join d.pageRoot "mkdocs.json") (fileText (contents pages))
  return d

end Documentation
end QmlScript
