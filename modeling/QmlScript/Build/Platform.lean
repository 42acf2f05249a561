import QmlScript.Compile

/-!
# Platforms

A program is built for a platform, which may need others. Platforms are found beside the compiler or in
packages that extend it, level by level, and put into an order in which each comes behind those it needs.
-/

namespace QmlScript.Build

def extensionName : String := "qmlcore-"

/-- The directory of a platform: the compiler's own, or the first of a package. -/
def findPlatform (tree : FileTree) (root : String) (packages : List String) (platform : String) :
    Except BuildError String :=
  let inside (directory : String) : String := Path.join (Path.join directory "platform") platform
  let places := inside root ::
    (packages.filter fun package => startsWithText extensionName (Path.name package)).map inside
  match places.find? fun place => tree.has place with
  | some place => .ok place
  | none => .error (.unknownPlatform platform)

/-- The platforms in the order of discovery, their directories, needs and manifests, the last one first. -/
structure Platforms where
  paths : Table String String := {}
  needs : Table String NameSet := {}
  manifests : List Manifest := []

def needsOf (platform : String) (manifest : Manifest) : Except BuildError (List Json) := do
  let elements (value : Json) : Except BuildError (List Json) :=
    (Compile.elements value).mapError .kind
  let general ← elements (← (manifest.requires).mapError .setting)
  for need in general do (Compile.checkHashable need).mapError .kind
  let special ← elements (← (manifest.platformRequires platform).mapError .setting)
  for need in special do (Compile.checkHashable need).mapError .kind
  return general ++ special

def texts (values : List Json) : List String :=
  values.filterMap fun | .str s => some s | _ => none

def discoverOne (root platform : String) (packages : List String) (known : Platforms) (name : Json) :
    Job (Platforms × List Json) := do
  Job.ofExcept .kind (Compile.checkHashable name)
  match name with
  | .str name =>
    if known.paths.contains name then return (known, [])
    let path ← Job.ofExcept id (findPlatform (← get).tree root packages name)
    let manifest ← Job.readManifest (Path.join path Compile.manifestFile)
    let needs ← Job.ofExcept id (needsOf platform manifest)
    let known := { known with
      paths := known.paths.insert name path
      needs := known.needs.insert name (orderedSet textLt (texts needs))
      manifests := manifest :: known.manifests }
    return (known, needs)
  | other => throw (.kind (.notPath other.kind))

def discoverLevel (root platform : String) (packages : List String) (known : Platforms)
    (names : List Json) : Job (Platforms × List Json) :=
  names.foldlM (fun (known, next) name => do
    let (known, needs) ← discoverOne root platform packages known name
    return (known, next ++ needs)) (known, [])

/-- Discover platforms level by level. Every level but the last brings a name, and `bound` is more than there are. -/
def discover (root platform : String) (packages : List String) :
    (bound : Nat) → Platforms → List Json → Job Platforms
  | 0, known, _ => return known
  | _ + 1, known, [] => return known
  | bound + 1, known, names => do
    let (known, next) ← discoverLevel root platform packages known names
    discover root platform packages bound known next

/-- All that files mention as needs of the target, read as manifests. -/
def mentioned (tree : FileTree) (platform : String) : List Json :=
  tree.files.flatMap fun (_, text) =>
    match Manifest.read (String.ofList (Text.unifyBreaks text.toList)) with
    | .ok manifest => (needsOf platform manifest).toOption.getD []
    | .error _ => []

/-- Platforms in the order of meeting and of use, and what the others still need. -/
structure Unrolled where
  met : List String := []
  ready : List String := []
  needs : Table String NameSet

/-- Meet a platform: one that needs nothing is ready, and nobody needs it any more. -/
def meet (state : Unrolled) (name : String) : Unrolled :=
  let met := if state.met.contains name then state.met else state.met ++ [name]
  if (state.needs.get? name).getD [] = [] then
    { met, ready := state.ready ++ [name]
      needs := (state.needs.erase name).map fun needs => needs.filter (· ≠ name) }
  else { state with met }

/-- Meet all platforms that are not ready until all are; there is no result after `bound` rounds. -/
def unroll : (bound : Nat) → Unrolled → Option Unrolled
  | bound, state =>
    if state.needs.entries.isEmpty then some state
    else
      match bound with
      | 0 => none
      | bound + 1 => unroll bound (state.needs.keys.foldl meet state)

/-- The order of platforms: every round makes one ready, unless they need each other. -/
def order (platforms : Platforms) : Except BuildError Unrolled :=
  match unroll platforms.needs.size { needs := platforms.needs } with
  | some state => .ok state
  | none => .error .endlessPlatforms

end QmlScript.Build
