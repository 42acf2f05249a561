import QmlScript.Registry.Emit

/-!
# Programs

A program contains the context, the applications, every component that a script asks for, and whatever the
sections of these use in turn. In the program a component stands behind its base, the objects of all packages
stand in front, and the scripts behind.
-/

namespace QmlScript.Registry

/-- A request `@using` for a component in a script. -/
def using? : Text.Recogniser String := fun s => do
  let rest ← Text.after? "@using".toList s
  match Text.dropBlank rest with
  | '\x7b' :: inside =>
    let (name, rest) ← Script.upTo? ['\x7d'] inside
    some (String.ofList (Text.trim name), s.length - rest.length + 1)
  | _ => none

/-- Mark all that a script asks for as used. -/
def scanUsing (code : String) : Work Unit := do
  for name in Text.findAll using? code.toList do
    let package := Package.escapeSegments (Package.ofName name)
    modify fun r => { r with
      usedComponents := NameSet.add r.usedComponents name
      usedPackages := NameSet.add r.usedPackages package }

def buildIdName : String := "buildIdentifier"

/-- The first property of that name gets the build identifier. -/
def setBuildIdItems (buildId : String) : List (String × Tree) → List (String × Tree)
  | [] => []
  | (name, value) :: items =>
    if name = buildIdName then (name, .text buildId) :: items
    else (name, value) :: setBuildIdItems buildId items

/-- A context that knows the build identifier. -/
def setBuildId (buildId : String) (c : Component) : Component :=
  let change := fun p : Property => { p with items := setBuildIdItems buildId p.items }
  { c with properties := c.properties.map change, declared := c.declared.map change }

/-- Prepare components up to the first that is refused. -/
def prepareAll : List String → Work Unit
  | [] => return
  | name :: names => do
    let c ← component name
    let ((c, error), registry) := prepareComponent c (← get)
    set { registry with components := registry.components.insert name c }
    match error with
    | some e => throw e
    | none => prepareAll names

/-- Sections generated so far, and the bases of components taken. -/
structure Sections where
  /-- The sections by names of components; the root of all types has none. -/
  code : Table String String := {}
  bases : Table String String := {}

/-- Whether a component has a section or needs none. -/
def Sections.has (sections : Sections) (name : String) : Bool :=
  name = root || sections.code.contains name

/-- Take a component: its base is used, and a missing section generated. -/
def generateSection (sections : Sections) (name : String) : Work Sections := do
  let c ← component name
  let base ← baseOf c
  let sections := { sections with bases := sections.bases.insert name base }
  if sections.has name then return sections
  else
    let code ← sectionText c
    return { sections with code := sections.code.insert name code }

/-- Work the queue off, with marked components behind it. -/
def generateQueue : (bound : Nat) → List String → Sections → Work Sections
  | 0, _, sections => return sections
  | bound + 1, queue, sections => do
    let used := (← get).usedComponents
    if queue.isEmpty && used.isEmpty then return sections
    let queue := queue ++ used.filter fun name => !sections.has name
    modify fun r => { r with usedComponents := [] }
    match queue with
    | [] => generateQueue bound [] sections
    | name :: queue => generateQueue bound queue (← generateSection sections name)

/-- More rounds than a queue needs: each section is generated once and marks at most all declared names. -/
def roundBound (registry : Registry) : Nat :=
  let components := registry.components.size
  let names := registry.packages.values.flatten.length
  2 * (components + 2) * (registry.usedComponents.length + (components + 1) * (names + 1) + 2)

/-- The names of components behind their bases, given those placed. -/
def placeBehindBase (bases : Table String String) :
    (bound : Nat) → String → List String → Except Error (List String)
  | 0, _, _ => .error .endlessBases
  | bound + 1, name, placed =>
    if name = root || placed.contains name then .ok placed
    else
      match bases.get? name with
      | none => .error (.missing name)
      | some base => do return (← placeBehindBase bases bound base placed) ++ [name]

/-- The order of sections: each behind that of its base. -/
def sectionOrder (bases : Table String String) : Except Error (List String) :=
  bases.keys.foldlM (fun placed name => placeBehindBase bases (bases.size + 2) name placed) []

def contextName : String := "Context"

/-- Take the requests of all scripts. -/
def scanAll (codes : List String) : Work Unit := do
  for code in codes do scanUsing code

/-- Mark the type of contexts as used, and tell it the build identifier. -/
def markContext : Work Unit := do
  let context ← find rootPackage contextName true {}
  let contextComponent ← component context
  modify fun r => { r with
    components := r.components.insert context (setBuildId r.buildId contextComponent) }

/-- Mark what scripts ask for, and the context. -/
def markProgram : Work Unit := do
  scanAll (← get).imports.values
  markContext

/-- Before sections are generated, `markProgram` runs and all are prepared. -/
def prepareProgram : Work Unit := do
  markProgram
  prepareAll (← get).components.keys

/-- The sections of a program whose components are prepared. -/
def generatePrepared : Work String := do
  let sections ← generateQueue (roundBound (← get)) [rootPackage ++ "." ++ contextName] {}
  let order ← check (sectionOrder sections.bases)
  return String.join (order.map fun name => (sections.code.get? name).getD "")

/-- The sections of a program. -/
def generateComponents : Work String := do
  prepareProgram
  generatePrepared

/-- Packages inside of packages. -/
inductive PackageTree where
  | node (packages : List (String × PackageTree))

mutual

def PackageTree.add : List String → PackageTree → PackageTree
  | [], tree => tree
  | name :: path, .node packages => .node (addTo name path packages)

def PackageTree.addTo (name : String) (path : List String) :
    List (String × PackageTree) → List (String × PackageTree)
  | [] => [(name, PackageTree.add path (.node []))]
  | (n, tree) :: packages =>
    if n = name then (n, PackageTree.add path tree) :: packages
    else (n, tree) :: PackageTree.addTo name path packages

end

mutual

/-- Lines for the objects and variables of packages. -/
def PackageTree.lines (path : String) : PackageTree → Except Error (List String)
  | .node packages => PackageTree.linesOf path packages

def PackageTree.linesOf (path : String) :
    List (String × PackageTree) → Except Error (List String)
  | [] => .ok []
  | (name, tree) :: packages => do
    if name = "" then throw .emptyPackage
    let package := Package.escapeSegments (path ++ "." ++ name)
    let inside ← PackageTree.lines package tree
    let others ← PackageTree.linesOf path packages
    return ["if (!" ++ package ++ ") /** @const */ " ++ package ++ " = \x7b\x7d",
      "var " ++ Package.mangle package ++ " = " ++ package] ++ inside ++ others

end

/-- The tree of packages with dots in their names. -/
def PackageTree.ofPackages (packages : List String) : PackageTree :=
  packages.foldl (fun tree package => tree.add (splitText '.' package)) (.node [])

/-- Code inside of a function of its own. -/
def wrap (code : String) (useGlobals : Bool) : String :=
  "(function() \x7b/** @const */\nvar exports = " ++ (if useGlobals then "_globals" else "\x7b\x7d") ++
    ";\n" ++ code ++ "\nreturn exports;\n\x7d )"

def coreScript : String := "core.core"

/-- A script as an object of the program. -/
def importText (name code : String) : String :=
  let path := if endsWithText ".js" name then String.ofList (name.toList.take (name.length - 3)) else name
  let path := Package.escapeSegments (replaceText "/" "." path)
  "_globals." ++ path ++ " = " ++
    wrap ("//=====[import " ++ name ++ "]=====================\n\n" ++ code) (name = coreScript) ++ "()"

/-- All scripts but the core, which comes first. -/
def importTexts (registry : Registry) : String :=
  String.join <| registry.imports.entries.map fun (name, code) =>
    if name = coreScript then "" else importText name code ++ "\n"

/-- The objects of the packages in use, and the core script. -/
def prologue : Work String := do
  modify fun r => { r with
    usedPackages := r.imports.keys.foldl (fun set name => NameSet.add set (Package.ofName name))
      r.usedPackages }
  let registry ← get
  let lines ← check (PackageTree.lines "_globals" (.ofPackages registry.usedPackages))
  let core :=
    match registry.imports.get? coreScript with
    | some code => [importText coreScript code]
    | none => []
  return "\n".intercalate (lines ++ core)

/-- The program before arguments are copied: its object, packages, sections and scripts. -/
def programText (ns packages sections scripts : String) : String :=
  ns ++ " = " ++ wrap ("/** @const */\nvar _globals = exports\n" ++ packages ++ "\n" ++
    "//========================================\n\n" ++
    "/** @const @type \x7b!CoreObject\x7d */\nvar core = _globals.core.core\n" ++
    sections ++ "\n" ++ scripts ++ "\n") false ++ "();\n"

/-- The program with the given sections. -/
def finishProgram (sections : String) : Work String := do
  let packages ← prologue
  let registry ← get
  check (Script.replaceArgs (programText registry.ns packages sections (importTexts registry)))

/-- The program of the components and scripts of a registry. -/
def generate : Work String := do
  let sections ← generateComponents
  finishProgram sections

/-- The localized texts as an object. -/
def l10nValue (registry : Registry) : Json :=
  .obj <| registry.l10n.entries.map fun (language, texts) =>
    (language, .obj <| texts.entries.map fun (source, contexts) =>
      (source, .obj <| contexts.entries.map fun (context, text) =>
        (context, (text.map Json.str).getD .null)))

/-- The lines that start the applications. -/
def startupText (ns app : String) : Work String := do
  let context ← find rootPackage contextName true {}
  let registry ← get
  let lines := [
    "\tvar l10n = " ++ (l10nValue registry).text ++ "\n",
    "\tvar context = " ++ ns ++ "._context = new qml." ++ context ++
      "(null, false, \x7bid: 'qml-context-" ++ app ++ "', l10n: l10n, nativeContext: " ++
      (if registry.module then "nativeContext" else "null") ++ "\x7d)",
    "\tcontext.init()"] ++ registry.startup
  let body := "\n".intercalate lines ++ "\n"
  if registry.module then
    return "module.exports = " ++ ns ++ "\nmodule.exports.run = function(nativeContext) \x7b\n" ++
      body ++ "\treturn context\n\x7d"
  else return body

end QmlScript.Registry
