import QmlScript.Component
import QmlScript.Text.LetterCase

/-!
# The registry of components

Components are registered under their full names, and each package knows the names that were declared in it.
What a reference resolves to is marked as used, since a program contains only what it uses. Work that fails
half way keeps what was done before.
-/

namespace QmlScript

/-- The components and scripts of a program, and what of it is used. -/
structure Registry where
  ns : String
  buildId : String
  module : Bool := false
  components : Table String Component := {}
  packages : Table String NameSet := {}
  usedComponents : NameSet := []
  usedPackages : NameSet := []
  imports : Table String String := {}
  ids : NameSet := ["context", "model"]
  startup : List String := []
  /-- Localized texts by language, source and context. -/
  l10n : Table String (Table String (Table String (Option String))) := {}

/-- Work on a registry that may fail, with the registry left in both cases. -/
abbrev Work := ExceptT Error (StateM Registry)

namespace Registry

def rootPackage : String := "core"

def rootName : String := "CoreObject"

/-- The root of all types, which has no component. -/
def root : String := rootPackage ++ "." ++ rootName

/-- The outcome of work on a registry, and the registry behind it. -/
def run {α : Type} (work : Work α) (registry : Registry) : Except Error α × Registry :=
  StateT.run (ExceptT.run work) registry

def check {α : Type} (result : Except Error α) : Work α :=
  match result with
  | .ok a => pure a
  | .error e => throw e

/-- The name of a component of an application, if it declares no type. -/
def applicationName? (package name : String) : Option String :=
  match name.toList with
  | [] => none
  | c :: rest =>
    some (package ++ ".Ui" ++ String.ofList (Text.capital c) ++ Package.escape (String.ofList rest))

/-- Register a tree as a type, or as an application that starts. -/
def addComponent (name : String) (tree : Tree) (declaration : Bool) : Work Unit := do
  if (← get).components.contains name then throw (.duplicateComponent name)
  let (package, componentName) := Package.splitName name
  let package := Package.escapeSegments package
  let fullName ←
    if declaration then pure (package ++ "." ++ componentName)
    else
      match applicationName? package componentName with
      | none => throw .emptyName
      | some fullName =>
        modify fun r => { r with
          usedComponents := NameSet.add r.usedComponents fullName
          usedPackages := NameSet.add r.usedPackages package
          startup := r.startup ++
            ["\tcontext.start(new qml." ++ fullName ++ "(context))", "\tcontext.run()"] }
        pure fullName
  modify fun r => { r with
    packages := r.packages.insert package
      (NameSet.add ((r.packages.get? package).getD []) componentName) }
  let component ← check (Component.build fullName true tree)
  modify fun r => { r with components := r.components.insert fullName component }

/-- Add a script; no name is given twice. -/
def addScript (name code : String) : Work Unit := do
  if (← get).imports.contains name then throw (.duplicateScript name)
  modify fun r => { r with imports := r.imports.insert name code }

/-- How a name is written: with a variable, or below all packages. -/
structure NameStyle where
  mangle : Bool := false
  globals : Bool := false

def NameStyle.write (style : NameStyle) (package name : String) : String :=
  let package := if style.mangle then Package.mangle package else package
  let package := if style.globals then "_globals." ++ package else package
  package ++ "." ++ name

/-- The packages with a component of the name that `wanted` may mean: itself or one that ends in it. -/
def candidates (registry : Registry) (wanted name : String) : List String :=
  registry.packages.entries.filterMap fun (package, names) =>
    if names.contains name &&
      (wanted = "" || package = wanted || endsWithText ("." ++ wanted) package)
    then some package else none

/-- The package a reference from `current` means: a single candidate, or the current one, then that of the root. -/
def choosePackage (current reference name : String) : List String → Except Error String
  | [] => .error (.notFound reference)
  | [package] => .ok package
  | packages =>
    if packages.contains current then .ok current
    else if packages.contains rootPackage then .ok rootPackage
    else .error (.ambiguous name packages)

/-- Find what a reference means, mark it as used if `register` is set, and write its name. -/
def find (current reference : String) (register : Bool) (style : NameStyle) : Work String := do
  if reference = rootName then return style.write rootPackage rootName
  let (wanted, name) := Package.splitName reference
  let package ← check (choosePackage current reference name ((← get).candidates wanted name))
  if register then
    modify fun r => { r with usedComponents := NameSet.add r.usedComponents (package ++ "." ++ name) }
  return style.write package name

/-- The component of a full name. -/
def component (name : String) : Work Component := do
  match (← get).components.get? name with
  | some c => return c
  | none => throw (.missing name)

/-- Find a component, and write its variable. -/
def findMangled (current reference : String) : Work String :=
  find current reference true { mangle := true }

/-- The full name of the base of a component, which gets marked. -/
def baseOf (c : Component) : Work String := find c.package c.base true {}

def mangledBaseOf (c : Component) : Work String := findMangled c.package c.base

end Registry
end QmlScript
