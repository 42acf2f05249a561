import QmlScript.Json.Reader
import QmlScript.Text.Scan

/-!
# Manifests

A manifest is a JSON object of settings. Names of settings may have dots in them: `a.b` is the setting
`b` inside the settings `a`, and a dotted key in the text of a manifest means the same as nesting.
Settings that are not given have fixed values.
-/

namespace QmlScript

inductive SettingError where
  | noSettings (kind request : String)
  | notSettable (kind : String)
  deriving DecidableEq, Repr

def SettingError.message : SettingError → String
  | .noSettings kind request => s!"'{kind}' object has no attribute '{request}'"
  | .notSettable kind =>
    if kind = "list" then "list indices must be integers or slices, not str"
    else s!"'{kind}' object does not support item assignment"

namespace Setting

def path (name : String) : List String := splitText '.' name

def getPath (default : Json) : List String → Json → Except SettingError Json
  | [], value => .ok value
  | [key], .obj fields => .ok ((Json.field? key fields).getD default)
  | key :: path, .obj fields => getPath default path ((Json.field? key fields).getD (.obj []))
  | _ :: _, value => .error (.noSettings value.kind "get")

/-- Set the value on a path; settings on the way are made where there are none. -/
def setPath (value : Json) : List String → Json → Except SettingError Json
  | [], _ => .ok value
  | [key], .obj fields => .ok (.obj (Json.setField key value fields))
  | [_], settings => .error (.notSettable settings.kind)
  | key :: path, .obj fields => do
    let inner ← setPath value path ((Json.field? key fields).getD (.obj []))
    return .obj (Json.setField key inner fields)
  | _ :: _, settings => .error (.noSettings settings.kind "setdefault")

/-- The setting of a dotted name, or a default. -/
def get (settings : Json) (name : String) (default : Json) : Except SettingError Json :=
  getPath default (path name) settings

/-- Settings with one of a dotted name set. -/
def set (settings : Json) (name : String) (value : Json) : Except SettingError Json :=
  setPath value (path name) settings

def ofPairs (pairs : List (String × Json)) : Except SettingError Json :=
  pairs.foldlM (fun settings (name, value) => set settings name value) (.obj [])

mutual

/-- A number that bounds the nesting of settings, dots in names included. -/
def weight : Json → Nat
  | .obj fields => fieldsWeight fields + 1
  | _ => 1

def fieldsWeight : List (String × Json) → Nat
  | [] => 0
  | (name, value) :: fields => name.length + 1 + weight value + fieldsWeight fields

end

mutual

def mergeUpTo : (bound : Nat) → (target source : Json) → Except SettingError Json
  | 0, target, _ => .ok target
  | bound + 1, target, .obj fields => do
    match ← ofPairs fields with
    | .obj fields => mergeFields bound target fields
    | _ => return target
  | _ + 1, _, source => .error (.noSettings source.kind "items")

def mergeFields : (bound : Nat) → (target : Json) → List (String × Json) → Except SettingError Json
  | _, target, [] => .ok target
  | 0, target, _ => .ok target
  | bound + 1, target, (name, value) :: fields => do
    let target ←
      match target, value with
      | .obj settings, .obj _ => do
        let inner ← mergeUpTo bound ((Json.field? name settings).getD (.obj [])) value
        pure (Json.obj (Json.setField name inner settings))
      | .obj settings, value => pure (Json.obj (Json.setField name value settings))
      | target, .obj _ => throw (.noSettings target.kind "setdefault")
      | target, _ => throw (.notSettable target.kind)
    mergeFields bound target fields

end

/-- Merge settings: objects in both are merged, any other value replaces what was there. -/
def merge (target source : Json) : Except SettingError Json :=
  mergeUpTo (2 * weight source + 2) target source

end Setting

/-- The settings of a project. -/
structure Manifest where
  data : Json := .obj []

namespace Manifest

def ofData : Json → Manifest
  | .null => {}
  | data => ⟨data⟩

def read (text : String) : Except (Json.ReadError SettingError) Manifest := do
  return ofData (← Json.readWith Setting.ofPairs text)

def top (m : Manifest) (key : String) (default : Json) : Except SettingError Json :=
  Setting.getPath default [key] m.data

def sourceDir (m : Manifest) : Except SettingError Json := m.top "sources" (.str "src")

def webRoot (m : Manifest) : Except SettingError Json := m.top "web-prefix" (.str "")

def strict (m : Manifest) : Except SettingError Json := m.top "strict" (.bool true)

def standalone (m : Manifest) : Except SettingError Json := m.top "standalone" (.bool true)

def requires (m : Manifest) : Except SettingError Json := m.top "requires" (.arr [])

def useOnlyFor (m : Manifest) : Except SettingError Json := m.top "use-only-for" (.arr [])

def platformRequires (m : Manifest) (platform : String) : Except SettingError Json :=
  Setting.get m.data ("platform." ++ platform ++ ".requires") (.arr [])

def minify (m : Manifest) : Except SettingError Json := m.top "minify" (.bool false)

def templater (m : Manifest) : Except SettingError Json := m.top "templater" (.str "simple")

def languages (m : Manifest) : Except SettingError Json := m.top "languages" (.arr [])

def platforms (m : Manifest) : Except SettingError Json := m.top "platforms" (.arr [])

def package (m : Manifest) : Except SettingError Json := m.top "package" (.str "")

def isPublic (m : Manifest) : Except SettingError Json := m.top "public" (.bool false)

def templates (m : Manifest) : Except SettingError Json := m.top "templates" (.arr [.str "*.html"])

def properties (m : Manifest) : Except SettingError Json :=
  match m.data with
  | .obj fields => .ok ((Json.field? "properties" fields).getD (.obj []))
  | data => .error (.noSettings data.kind "setdefault")

def partner (m : Manifest) : Except SettingError Json := m.top "partner" (.str "free")

def exportModule (m : Manifest) : Except SettingError Json := m.top "export_module" (.bool false)

def setProperty (m : Manifest) (name : String) (value : Json) : Except SettingError Manifest := do
  let properties ← Setting.set (← m.properties) name value
  return ⟨← Setting.setPath properties ["properties"] m.data⟩

end Manifest
end QmlScript
