import QmlScript.FileTree
import QmlScript.Localization.Catalog
import QmlScript.Markup.Reader

/-!
# Catalogs as documents

A catalog is kept in a markup document. Reading one takes the elements it knows and passes over all
others; of several elements with one meaning the last counts. Written documents are ordered: contexts
by name, messages by source.
-/

namespace QmlScript.Localization

open Markup (Element)

inductive CatalogError where
  | file (cause : FileError)
  | malformed
  | encoding (cause : Text.EncodingError)
  | noSource
  | noName
  | noAttribute (name : String)
  | unwritable
  deriving DecidableEq, Repr

def CatalogError.message : CatalogError → String
  | .file cause => cause.message
  | .noSource => "message without source"
  | .noName => "context without name"
  | .noAttribute name => name
  | .encoding cause => cause.message
  | .malformed => ""
  | .unwritable => ""

def Location.ofElement (e : Element) : Except CatalogError Location := do
  let required (name : String) : Except CatalogError String :=
    match e.attribute? name with
    | some value => .ok value
    | none => .error (.noAttribute name)
  return { fileName := ← required "filename", line := .given (← required "line") }

def Wording.ofElement (e : Element) : Wording :=
  { status := some ((e.attribute? "type").getD stale), text := e.text }

structure MessageParts where
  source : Option String := none
  location : Option Location := none
  wording : Wording := {}

def MessageParts.add (m : MessageParts) (e : Element) : Except CatalogError MessageParts :=
  if e.name = "source" then .ok { m with source := e.text }
  else if e.name = "location" then do return { m with location := some (← Location.ofElement e) }
  else if e.name = "translation" then .ok { m with wording := .ofElement e }
  else .ok m

def Message.ofElement (e : Element) : Except CatalogError Message := do
  let m ← e.children.foldlM MessageParts.add {}
  match m.source with
  | some source => return { location := m.location, source, wording := m.wording }
  | none => throw .noSource

def Context.ofElement (e : Element) : Except CatalogError Context := do
  let (name, messages) ← e.children.foldlM (fun (name, messages) child => do
    if child.name = "message" then
      let m ← Message.ofElement child
      return (name, messages.insert m.source m)
    else if child.name = "name" then return (child.text, messages)
    else return (name, messages)) ((none : Option String), (Table.empty : Table String Message))
  match name with
  | some name => return { name, messages }
  | none => throw .noName

def Catalog.ofElement (path : String) (e : Element) : Except CatalogError Catalog := do
  let contexts ← e.children.foldlM (fun contexts child => do
    if child.name = "context" then
      let c ← Context.ofElement child
      return contexts.insert c.name c
    else return contexts) (Table.empty : Table String Context)
  return { path, language := e.attribute? "language", version := e.attribute? "version", contexts }

def Catalog.load (tree : FileTree) (path : String) (language : Option String) :
    Except CatalogError Catalog := do
  if tree.has path then
    match Markup.read (← (tree.readExact path).mapError .file) with
    | .ok e => Catalog.ofElement path e
    | .error .malformed => throw .malformed
    | .error (.encoding cause) => throw (.encoding cause)
  else return { path, language }

def textElement (name text : String) : Element := { name, text := some text }

def Location.toElement (l : Location) : Element :=
  { name := "location", attributes := [("filename", l.fileName), ("line", l.line.text)] }

def Wording.toElement (w : Wording) : Element :=
  let status := if w.status = some stale then some obsolete else w.status
  { name := "translation", attributes := (status.map fun s => ("type", s)).toList,
    text := some (w.text.getD "") }

def Message.toElement (m : Message) : Element :=
  { name := "message",
    children := (m.location.map Location.toElement).toList ++
      [textElement "source" m.source, m.wording.toElement] }

def Context.toElement (c : Context) : Element :=
  { name := "context",
    children := textElement "name" c.name ::
      (sortBy (fun a b => textLt a.source b.source) c.messages.values).map Message.toElement }

def Catalog.toElement (catalog : Catalog) : Element :=
  let given (name : String) (value : Option String) : List (String × String) :=
    match value with
    | none => []
    | some value => if value = "" then [] else [(name, value)]
  { name := "TS",
    attributes := given "version" catalog.version ++ given "language" catalog.language,
    children := (sortBy (fun a b => textLt a.name b.name) catalog.contexts.values).map
      Context.toElement }

def Catalog.document (catalog : Catalog) : Except CatalogError String :=
  match Markup.write? catalog.toElement with
  | some text => .ok text
  | none => .error .unwritable

def Catalog.save (tree : FileTree) (catalog : Catalog) : Except CatalogError FileTree := do
  (tree.write catalog.path (← catalog.document)).mapError .file

def Catalog.scanFile (tree : FileTree) (catalog : Catalog) (path context : String) :
    Except CatalogError Catalog := do
  let text ← (tree.read path).mapError .file
  return catalog.addText context (Path.normalise path) text

/-- Whether directories of a name hold sources: not hidden ones, nor those of the compiler. -/
def holdsSources (name : String) : Bool :=
  !startsWithText "." name && !startsWithText "qmlcore" name

def sourceFiles (tree : FileTree) (directory : String) : List (String × String) :=
  (tree.walk (fun _ name => holdsSources name) directory).flatMap fun visit =>
    visit.files.filterMap fun file =>
      let (context, extension) := Path.splitExtension file
      if extension = ".qml" || extension = ".js" then some (Path.join visit.path file, context)
      else none

def Catalog.scan (tree : FileTree) (catalog : Catalog) (directories : List String) :
    Except CatalogError Catalog :=
  (directories.flatMap (sourceFiles tree)).foldlM
    (fun catalog (path, context) => Catalog.scanFile tree catalog path context) catalog

/-- The files with the catalog at a path updated from the sources. A new catalog gets the given language. -/
def Catalog.update (tree : FileTree) (path : String) (language : Option String)
    (directories : List String) : Except CatalogError FileTree := do
  let catalog ← Catalog.load tree path language
  let catalog ← Catalog.scan tree catalog directories
  Catalog.save tree catalog

end QmlScript.Localization
