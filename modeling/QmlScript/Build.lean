import QmlScript.Build.Options
import QmlScript.Build.Platform
import QmlScript.Build.Template
import QmlScript.Command

/-!
# The build command

The command reads the manifest of a program and compiles its applications for each platform. Beside a
program go the files of the compiler, the platforms and the program itself, templates filled in.
-/

namespace QmlScript.Build

def startProgram (root program : String) : Command Unit := do
  let tree := (← get).tree
  if tree.has ".manifest" || tree.has "src/app.qml" then
    Command.say <| "error: will not overwrite any file, you already have your project set up, run " ++
      program
    Command.exit 1
  Command.ofJob (Job.write ".manifest" "\x7b \x7d\n")
  modify fun w => { w with tree := ((w.tree.makeDirectory "src").toOption).getD w.tree }
  Command.ofJob (Job.write "src/app.qml" "")
  let text ← Command.ofJob (Job.look fun tree => tree.read (Path.join root "app.qml"))
  Command.ofJob (Job.write "src/app.qml" text)
  Command.say s!"finished, run {program} now"
  Command.exit 0

def application? (file : String) : Option String :=
  if Compile.startsIn Text.isSmall file && endsWithText ".qml" file then
    some (String.ofList (file.toList.take (file.length - 4)))
  else none

def updateCatalog (directory language : String) : Command Unit := do
  Command.say s!"updating translation for language {language}"
  let path := Path.join directory (language ++ ".ts")
  let tree := (← get).tree
  let tree ← Command.ofJob
    (Job.ofExcept .catalog (Localization.Catalog.update tree path (some language) [directory]))
  modify fun w => { w with tree }

def updateCatalogs (manifest : Manifest) (directory : Json) : Command Unit := do
  let languages ← Command.setting manifest.languages
  for language in ← Command.ofJob (Job.ofExcept .kind (Compile.elements languages)) do
    match language, directory with
    | .str language, .str directory => updateCatalog directory language
    | language, directory =>
      let shown := language.display
      Command.say s!"updating translation for language {shown}"
      throw (.failure (.kind (match language with
        | .str _ => .notName directory.kind
        | other => .notOperand "+" other.kind "str")))

def sourceFiles (tree : FileTree) (directory : Json) : Except BuildError (List String) :=
  match directory with
  | .str directory => (tree.list directory).mapError .file
  | .null => (tree.list ".").mapError .file
  | other => .error (.kind (.notPath other.kind))

/-- The applications of a directory of sources, behind those of others: at least one. If catalogs are updated, nothing
else is done. -/
def readSources (options : Options) (manifest : Manifest) (apps : List String) (directory : Json) :
    Command (List String) := do
  let files ← Command.ofJob (Job.ofExcept id (sourceFiles (← get).tree directory))
  let apps := apps ++ files.filterMap application?
  if apps.isEmpty then throw (.failure .noApplications)
  if options.updateCatalogs then
    updateCatalogs manifest directory
    Command.exit 0
  return apps

def sourceDirectories : Json → List Json
  | .arr items => items
  | value => [value]

def sourcePaths (directories : List Json) : Except BuildError (List String) :=
  directories.mapM fun
    | .str directory => .ok directory
    | other => .error (.kind (.notName other.kind))

def subdirectories (tree : FileTree) (directory : String) : Except FileError (List String) := do
  let paths := (← tree.list directory).map (Path.join directory)
  return paths.filter fun path => tree.hasDirectory path

/-- The visible directories beside that of the compiler, and those inside it. -/
def packages (tree : FileTree) (root : String) : Except FileError (List String) := do
  let outer := Path.normalise (Path.join root "..")
  let beside ← if startsWithText ".." outer then pure [] else subdirectories tree outer
  return beside ++ (← subdirectories tree (Path.normalise root))

def isPublic (tree : FileTree) (package : String) : Bool :=
  match tree.read (Path.join (Path.normalise package) Compile.manifestFile) with
  | .error _ => false
  | .ok text =>
    match Manifest.read text with
    | .error _ => false
    | .ok manifest =>
      match manifest.isPublic with
      | .ok value => value.isTruthy
      | .error _ => false

def fillTemplate (context : Context) (source target : String) : Job Unit := do
  match (Json.field? "templater" context).getD .null with
  | .str "simple" =>
    let path := Path.join target (Path.name source)
    Job.write path ""
    let text ← Job.look fun tree => tree.read source
    Job.write path (← Job.ofExcept .kind (fillIn context text))
  | .str "jinja2" => throw .noTemplater
  | other => throw (.unknownTemplater other.display)

def copyResources (options : Options) (context : Context) (patterns : Json) (target source : String) :
    Job Unit := do
  if (← get).tree.hasDirectory source then
    if options.verbose then Job.say s!"copying from {source} to {target}"
    let names ← Job.look fun tree => tree.list source
    let tree ← Job.look fun tree => tree.copyInto source target
    modify fun w => { w with tree }
    for name in names do
      let path := Path.join source name
      if options.verbose then Job.say s!"+ {path}"
      let patterns ← Job.ofExcept .kind (Compile.elements patterns)
      let uses ← Job.ofExcept .kind (templateUses patterns name)
      for _ in List.range uses do fillTemplate context path target

def updateContext (context : Context) (properties : Json) : Except KindError Context :=
  match properties with
  | .obj fields => .ok (fields.foldl (fun context (name, value) => Json.setField name value context) context)
  | .arr [] => .ok context
  | .str "" => .ok context
  | other => .error (.notIterable other.kind)

def addManifests (context : Context) (manifests : List Manifest) : Except BuildError Context :=
  manifests.foldlM (fun context manifest => do
    let properties ← manifest.properties.mapError .setting
    (updateContext context properties).mapError .kind) context

def printedValue (value : Json) : List String → Except BuildError Json
  | [] => .ok value
  | name :: names =>
    match value with
    | .obj fields =>
      match Json.field? name fields with
      | some value => printedValue value names
      | none => .error (.noProperty name)
    | other => .error (.kind (.notSubscriptable other.kind))

def platformList (value : Json) : Except KindError (List Json) :=
  match value with
  | .arr items => .ok items
  | other => .error (.notAppendable "list" other.kind)

/-- What is needed to build for a platform: the platforms in order, their manifests, and the packages of every program.
-/
structure Plan where
  platforms : List String
  directories : List String
  /-- The manifests of the platforms, the last discovered first. -/
  manifests : List Manifest
  templates : Json
  packages : List String

/-- Put the platforms that a target needs in order. -/
def plan (root platform : String) (manifest : Manifest) : Job Plan := do
  let tree := (← get).tree
  let packages ← Job.ofExcept .file (packages tree root)
  let shared := packages.filter (isPublic tree)
  let directory ← Job.ofExcept id (findPlatform tree root packages platform)
  let _ ← Job.setting manifest.templates
  let own ← Job.readManifest (Path.join directory Compile.manifestFile)
  let templates ← Job.setting own.templates
  unless (← Job.setting own.standalone).isTruthy do throw (.notStandalone platform)
  let general ← Job.ofExcept .kind (platformList (← Job.setting manifest.requires))
  let special ← Job.ofExcept .kind (platformList (← Job.setting (manifest.platformRequires platform)))
  let names := .str platform :: general ++ special
  let bound := (mentioned tree platform).length + names.length + 1
  let found ← discover root platform packages bound {} names
  let unrolled ← Job.ofExcept id (order found)
  return {
    platforms := unrolled.met
    directories := unrolled.ready.filterMap found.paths.get?
    manifests := found.manifests
    templates, packages := shared }

def jobCount (jobs : Jobs) : Except BuildError Int :=
  match jobs with
  | .single => .ok 1
  | .all => .ok 2
  | .given text => (Number.readInt 10 text).mapError .number

def compile (settings : Compile.Settings) (sources : List Json) (packages : List String) :
    Command Unit := do
  let partners ← Command.ofJob (Compile.readPartners settings)
  match ← Command.tryJob (do
    let sources ← Job.ofExcept id (sourcePaths sources)
    Compile.generate { settings with projects := settings.projects ++ sources ++ packages } partners) with
  | .ok () => return
  | .error (.catalog .malformed) => throw (.failure .noPlace)
  | .error e =>
    Command.say e.report
    if settings.verbose then throw (.failure e) else Command.exit 1

def setWebRoot (options : Options) (manifest : Manifest) : Except SettingError Manifest := do
  let ofManifest ← manifest.webRoot
  let given := options.webRoot.getD ""
  let value := if given = "" then ofManifest else .str given
  if value.isTruthy then
    let properties ← Setting.setPath value ["html5", "prefix"] (← manifest.properties)
    return ⟨← Setting.setPath properties ["properties"] manifest.data⟩
  else return manifest

/-- The directories with files of the program, the most general first. -/
def ownResources (platforms : List String) (app : String) : List String :=
  "dist" :: (platforms.map fun platform => "dist.platform." ++ platform).reverse ++ ["dist." ++ app]

/-- Build an application for a platform. -/
def buildOne (options : Options) (root platform app : String) (severalApps : Bool)
    (sources : List Json) (manifest : Manifest) : Command Manifest := do
  Command.say s!"building {app} for {platform}..."
  let target := if severalApps then Path.join ("build." ++ platform) app else "build." ++ platform
  modify fun w => { w with tree := ((w.tree.makeDirectories target).toOption).getD w.tree }
  let plan ← Command.ofJob (plan root platform manifest)
  let manifest ← Command.setting (setWebRoot options manifest)
  if options.watch then throw (.failure .notWatching)
  let jobs ← Command.ofJob (Job.ofExcept id (jobCount options.jobs))
  let settings : Compile.Settings := {
    output := target, root
    projects := Path.join root "core" :: plan.directories
    manifest, app, platforms := plan.platforms
    documentation := options.documentation.filter (· ≠ "")
    release := options.release, verbose := options.verbose, jobs }
  compile settings sources plan.packages
  let templater ← Command.setting manifest.templater
  if options.verbose then Command.say "copying resources..."
  let start : Context :=
    [("id", .str app), ("app", .str s!"qml.{app}.js"), ("templater", templater)]
  let context ← Command.ofJob (Job.ofExcept id (addManifests start (plan.manifests ++ [manifest])))
  if let some path := options.printed then
    let value ← Command.ofJob (Job.ofExcept id (printedValue (.obj context) (splitText '.' path)))
    Command.print value.display
    Command.exit 0
  Command.ofJob (copyResources options context plan.templates target (Path.join root "dist"))
  let resources := plan.directories.map (Path.join · "dist") ++ ownResources plan.platforms app
  let context := Json.setField "template_path" (.arr (resources.map Json.str)) context
  for source in resources do
    Command.ofJob (copyResources options context plan.templates target source)
  return manifest

def buildAll (options : Options) (root : String) (apps : List String) (sources : List Json)
    (manifest : Manifest) (platforms : List Json) : Command Unit := do
  let wanted := apps.filter fun app => options.targets.isEmpty || options.targets.contains app
  let runs := platforms.flatMap fun platform => wanted.map fun app => (platform, app)
  let _ ← runs.foldlM (fun manifest (platform, app) =>
    match platform with
    | .str platform => buildOne options root platform app (apps.length > 1) sources manifest
    | other => do
      let shown := other.display
      Command.say s!"building {app} for {shown}..."
      throw (.failure (.kind (.notAppendable "str" other.kind)))) manifest
  return

/-- The platforms of the command line, of the manifest, or the web. -/
def platformsOf (options : Options) (listed : Json) : Except KindError (List Json) :=
  if !options.platforms.isEmpty then .ok (options.platforms.map Json.str)
  else if listed.isTruthy then Compile.elements listed
  else .ok [.str "web"]

/-- Do work and tell about its error, in detail or with an exit code. -/
def reporting (verbose : Bool) (command : Command Unit) : Command Unit :=
  tryCatch command fun
    | .failure .endlessPlatforms => throw (.failure .endlessPlatforms)
    | .failure e => do
      Command.say ("error: " ++ e.message)
      if verbose then throw (.failure e) else Command.exit 1
    | other => throw other

def readManifest (path : String) : Command Manifest := do
  match ← Command.tryJob (Job.readManifest path) with
  | .ok manifest => return manifest
  | .error (.file _) =>
    Command.say "warning: could not find .manifest, using empty fallback"
    return {}
  | .error e => throw (.failure e)

/-- Build all applications for all platforms. -/
def run (program : String) (options : Options) : Command Unit := do
  let root := Path.directory program
  if options.isNew then startProgram root program
  let manifest ← readManifest options.manifest
  let manifest ← options.properties.foldlM
    (fun m (name, value) => Command.setting (m.setProperty name (.str value))) manifest
  let sources := sourceDirectories (← Command.setting manifest.sourceDir)
  let apps ← sources.foldlM (readSources options manifest) []
  let listed ← Command.setting manifest.platforms
  reporting options.verbose do
    let platforms ← Command.ofJob (Job.ofExcept .kind (platformsOf options listed))
    buildAll options root apps sources manifest platforms

end QmlScript.Build
