import QmlScript.Cache
import QmlScript.Compile.Project
import QmlScript.Registry.Bundle
import QmlScript.Registry.Localization

/-!
# Compiling programs

A program is compiled from the files of several projects. Sources are parsed, or taken from the cache; scripts
and catalogs are taken as they are, and manifests add properties and switches. With several workers the trees
of sources come in after the walk, in its order; when a worker finishes is up to a schedule.
-/

namespace QmlScript

/-- The files, the cache and the lines told so far. -/
structure Workspace where
  tree : FileTree := .empty
  cache : Cache Tree := { codec := .tree }
  history : Grammar.History := {}
  output : List String := []
  log : List String := []

/-- Work in a workspace that may fail, with the workspace left in both cases. -/
abbrev Job := ExceptT BuildError (StateM Workspace)

namespace Job

def say (line : String) : Job Unit := modify fun w => { w with log := w.log ++ [line] }

def ofExcept {α ε : Type} (wrap : ε → BuildError) (result : Except ε α) : Job α :=
  match result with
  | .ok a => return a
  | .error e => throw (wrap e)

def look {α : Type} (f : FileTree → Except FileError α) : Job α := do
  ofExcept .file (f (← get).tree)

def files {α ε : Type} (wrap : ε → BuildError) (work : FileWork ε α) : Job α := do
  let w ← get
  let (result, tree) := work.run.run w.tree
  set { w with tree }
  ofExcept wrap result

def write (path text : String) : Job Unit := files id (FileWork.write path text)

def attempt {α : Type} (job : Job α) : Job (Except BuildError α) := ExceptT.lift job.run

def readManifest (path : String) : Job Manifest := do
  ofExcept id (Compile.readManifest (← get).tree path)

def setting {α : Type} (value : Except SettingError α) : Job α := ofExcept .setting value

end Job

namespace Compile

/-- What a program is compiled for, and from where. -/
structure Settings where
  output : String
  root : String
  projects : List String
  manifest : Manifest := {}
  app : String
  platforms : List String := []
  documentation : Option String := none
  release : Bool := false
  verbose : Bool := false
  jobs : Int := 1

def programName : String := "qml"

/-- What was gathered of a program. -/
structure Program where
  registry : Registry
  documentation : Option Documentation
  paths : Documentation.PathMap := {}
  properties : Json := .obj []
  strict : Bool
  parsed : Option String := none

/-- What came of a source: its tree, its text, and new documentation for the source before it. -/
structure Parsed where
  tree : Tree
  text : String
  isNew : Bool
  amendment : Option String := none

/-- A text on one line for each text, another one for each. -/
def sourceKey (text : String) : String := (Term.word text).text

/-- Save the tree that came of parsing a source file, if there is one. -/
def keepOutcome (name path text : String) (outcome : Grammar.Outcome) : Job Parsed :=
  match outcome.result with
  | .error e => throw (.source path text e)
  | .ok tree => do
    let w ← get
    match w.cache.keep w.tree name (sourceKey text) tree with
    | .error e => throw (.notKept path e)
    | .ok files =>
      set { w with tree := files }
      return { tree, text, isNew := true, amendment := outcome.amendment }

/-- The tree of a source file: from the cache, or by parsing a text that changed. -/
def parseFile (isHeard : Bool) (name path : String) : Job Parsed := do
  let text ← Job.look fun tree => tree.read path
  let w ← get
  match w.cache.read? w.tree name (sourceKey text) with
  | some tree => return { tree, text, isNew := false }
  | none =>
    if isHeard then Job.say s!"parsing {path} ... {name}"
    let outcome := Grammar.parse w.history text
    modify fun w => { w with
      history := outcome.history
      output := w.output ++ if isHeard then outcome.warnings.map (·.message) else [] }
    keepOutcome name path text outcome

def onRegistry {α : Type} (program : Program) (work : Work α) : Job (α × Program) := do
  match Registry.run work program.registry with
  | (.ok a, registry) => return (a, { program with registry })
  | (.error e, _) => throw (.component e)

def fill (program : Program) (work : Work Unit) : Job Program := do
  return (← onRegistry program work).2

abbrev Reader := (isHeard : Bool) → (name path : String) → Job Parsed

def Program.document (program : Program) (name : String) (isComponent : Bool) (source : Parsed) : Program :=
  let documentation := program.documentation.map fun d =>
    let d := d.amend program.parsed source.amendment
    if isComponent then d.addTree name source.tree else d
  { program with documentation, parsed := if source.isNew then some name else program.parsed }

def addSource (program : Program) (name : String) (isComponent : Bool) (source : Parsed) : Job Program :=
  fill (program.document name isComponent source) do
    Registry.addComponent name source.tree isComponent
    Registry.scanUsing source.text

def addCatalog (program : Program) (catalog : Localization.Catalog) : Job Program := do
  let (registry, warning) := Registry.addCatalog catalog program.registry
  modify fun w => { w with output := w.output ++ warning.toList }
  return { program with registry }

/-- Do a task of a walk. -/
def perform (reader : Reader) (settings : Settings) (program : Program) : Task → Job Program
  | .source name path isComponent => do addSource program name isComponent (← reader true name path)
  | .script name path => do
    let text ← Job.look fun tree => tree.read path
    if settings.verbose then Job.say s!"including js file... {path}"
    fill program (Registry.addScript name text)
  | .catalog path => do
    addCatalog program (← Job.ofExcept .catalog (Localization.Catalog.load (← get).tree path none))

def exportProgram (program : Program) (exported : Json) : Except KindError Program :=
  if exported.isTruthy then
    match exported with
    | .bool _ => .ok { program with registry := { program.registry with module := true } }
    | .int _ => .ok { program with registry := { program.registry with module := true } }
    | other => .error (.notOperand "|=" "bool" other.kind)
  else .ok program

/-- Take the properties and switches of a manifest in. -/
def applyManifest (settings : Settings) (program : Program) (manifest : Manifest) : Job Program := do
  let program ← Job.ofExcept .kind (exportProgram program (← Job.setting manifest.exportModule))
  let strict := program.strict && (← Job.setting manifest.strict).isTruthy
  let properties ← Job.setting do Setting.merge program.properties (← manifest.properties)
  let _ ← Job.ofExcept .kind
    (isForPlatforms (← Job.setting manifest.useOnlyFor) settings.platforms)
  return { program with strict, properties }

/-- A source given to the workers, and what came of it when one has finished. -/
structure Promise where
  name : String
  path : String
  isComponent : Bool
  answer : Option (Except BuildError Parsed) := none

def Promise.settle (reader : Reader) (promise : Promise) : Job Promise :=
  match promise.answer with
  | some _ => return promise
  | none => do
    let answer ← Job.attempt (reader false promise.name promise.path)
    return { promise with answer := some answer }

def settleAt (reader : Reader) (promises : List Promise) (number : Nat) : Job (List Promise) :=
  match promises[number]? with
  | some promise => return promises.set number (← promise.settle reader)
  | none => return promises

/-- The numbers of the sources that workers finish with at each moment. -/
abbrev Schedule := Nat → List Nat

/-- A walk: the program so far, and sources given to workers. -/
structure Progress where
  program : Program
  promises : List Promise := []
  moment : Nat := 0

def Progress.tick (reader : Reader) (schedule : Schedule) (progress : Progress) : Job Progress := do
  let promises ← (schedule progress.moment).foldlM (settleAt reader) progress.promises
  return { progress with promises, moment := progress.moment + 1 }

def promise? (settings : Settings) : Task → Option Promise
  | .source name path isComponent => if settings.jobs = 1 then none else some { name, path, isComponent }
  | _ => none

def Progress.takeIn (progress : Progress) (number : Nat) : Job Progress :=
  match progress.promises[number]? with
  | some { name, isComponent, answer := some answer, .. } => do
    let source ← Job.ofExcept id answer
    return { progress with program := ← addSource progress.program name isComponent source }
  | _ => return progress

/-- Wait for a source, and take it in. -/
def collect (reader : Reader) (schedule : Schedule) (progress : Progress) (number : Nat) : Job Progress := do
  let progress ← progress.tick reader schedule
  let promises ← settleAt reader progress.promises number
  { progress with promises : Progress }.takeIn number

def passTask (reader : Reader) (settings : Settings) (progress : Progress) (program : Program) (task : Task) :
    Job Progress :=
  match promise? settings task with
  | some promise => return { progress with program, promises := progress.promises ++ [promise] }
  | none => return { progress with program := ← perform reader settings program task }

def passFile (reader : Reader) (settings : Settings) (progress : Progress) (package directory file : String) :
    Job Progress :=
  let program := { progress.program with paths := progress.program.paths.insert file directory }
  match task? settings.app package directory file with
  | none => return { progress with program }
  | some task => passTask reader settings progress program task

def takeStep (reader : Reader) (settings : Settings) (schedule : Schedule) (progress : Progress) :
    Step → Job Progress
  | .manifest manifest => do
    return { progress with program := ← applyManifest settings progress.program manifest }
  | .file package directory file => do
    passFile reader settings (← progress.tick reader schedule) package directory file
  | .stop cause => throw cause

/-- Walk through a project. -/
def passProject (reader : Reader) (settings : Settings) (schedule : Schedule) (progress : Progress)
    (project : String) : Job Progress := do
  let naming := Naming.start project (← Job.setting settings.manifest.package)
  let steps := plan project naming (stations settings.platforms (← get).tree project)
  steps.foldlM (takeStep reader settings schedule) progress

def passProjects (reader : Reader) (settings : Settings) (schedule : Schedule) (program : Program) :
    Job Program := do
  let progress ← settings.projects.foldlM (passProject reader settings schedule) { program }
  let progress ← (List.range progress.promises.length).foldlM (collect reader schedule) progress
  return progress.program

/-- The schedule of workers that do nothing before they have to. -/
def lastMoment : Schedule := fun _ => []

def buildId (partners partner : Json) : Except BuildError String := do
  let entry ←
    match partners, partner with
    | .obj fields, .str name =>
      match Json.field? name fields with
      | some entry => pure entry
      | none => throw .unknownPartner
    | .obj _, partner => do
      (checkHashable partner).mapError .kind
      throw .unknownPartner
    | .arr items, .str name =>
      if items.any fun | .str s => s = name | _ => false then
        throw (.setting (.noSettings "list" "get"))
      else throw .unknownPartner
    | .arr _, _ => throw .unknownPartner
    | .str text, .str name =>
      if containsText name text then throw (.setting (.noSettings "str" "get"))
      else throw .unknownPartner
    | .str _, partner => throw (.kind (.notInText partner.kind))
    | other, _ => throw (.kind (.notSearchable other.kind))
  match entry with
  | .obj fields =>
    match (Json.field? "engine" fields).getD .null with
    | .str engine => return "Powered by PureQML " ++ engine ++ " Edition Engine"
    | other => throw (.kind (.notAppendable "str" other.kind))
  | other => throw (.setting (.noSettings other.kind "get"))

mutual

def propertyLines (name : String) : Json → String
  | .obj fields =>
    String.join ((sortBy (fun a b => textLt a.1 b.1) (fieldLines name fields)).map (·.2))
  | value => "var " ++ name ++ " = " ++ value.text ++ "\n"

def fieldLines (name : String) : List (String × Json) → List (String × String)
  | [] => []
  | (key, value) :: fields =>
    (key, propertyLines (name ++ "$" ++ Package.escapeId key) value) :: fieldLines name fields

end

def header (settings : Settings) (program : Program) : String :=
  (if program.strict then "'use strict'\n" else "") ++
    (if settings.release then "var log = function() \x7b \x7d\n" else "var log = null\n") ++
    propertyLines "$manifest" program.properties

def initialFile : String := ".core.js"

def initialCode (settings : Settings) : Job String := do
  let parts ← settings.projects.mapM fun project => do
    let path := Path.join project initialFile
    if (← get).tree.has path then
      if settings.verbose then Job.say s!"including platform initialisation file at {path}"
      Job.look fun tree => tree.read path
    else return ""
  Job.ofExcept .component (Script.replaceArgs (String.join parts))

def initialPlace : String := "/* $\x7binit.js\x7d */"

def setBuildId (id : String) : Tree → Tree
  | .component doc type body =>
    .component doc type <| body.map fun
      | .property doc type items => .property doc type (Registry.setBuildIdItems id items)
      | other => other
  | other => other

def readPartners (settings : Settings) : Job Json := do
  modify fun w => { w with tree := w.cache.prepare w.tree }
  let _ ← Job.setting settings.manifest.strict
  if settings.verbose then
    let jobs := settings.jobs
    Job.say s!"running using {jobs} jobs"
  let text ← Job.look fun tree => tree.read (Path.join settings.root "partners.json")
  match @Json.readWith Empty (fun pairs => .ok (Json.ofPairs pairs)) text with
  | .ok partners => return partners
  | .error (.malformed fault) => throw (.json text fault)
  | .error (.number fault) => throw (.number fault)

/-- Write the program to its file. -/
def generate (settings : Settings) (partners : Json) : Job Unit := do
  let id ← Job.ofExcept id (buildId partners (← Job.setting settings.manifest.partner))
  let initial ← initialCode settings
  if settings.jobs < 1 then throw .noWorkers
  let program ← passProjects parseFile settings lastMoment
    { registry := { ns := programName, buildId := id }
      documentation := settings.documentation.map fun root => { root }
      strict := (← Job.setting settings.manifest.strict).isTruthy }
  let properties ← Job.setting do Setting.merge program.properties (← settings.manifest.properties)
  let program := { program with properties }
  if settings.verbose then Job.say "generating sources..."
  let (code, program) ← onRegistry program Registry.generate
  let (startup, program) ← onRegistry program (Registry.startupText programName settings.app)
  let text := header settings program ++ "var " ++ code ++ startup
  Job.write (Path.join settings.output (programName ++ "." ++ settings.app ++ ".js"))
    (replaceText initialPlace initial text)
  match program.documentation with
  | none => pure ()
  | some d =>
    let d := d.modify (Registry.rootPackage ++ "." ++ Registry.contextName) (setBuildId id)
    let _ ← Job.files .documentation (d.write program.paths)
  Job.say "done"

def toldError : BuildError → BuildError
  | .catalog .malformed => .noPlace
  | e => e

/-- Compile a program, and tell about its error. -/
def run (settings : Settings) : Job Unit := do
  let partners ← readPartners settings
  ExceptT.adapt toldError (generate settings partners)

end Compile
end QmlScript
