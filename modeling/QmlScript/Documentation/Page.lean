import QmlScript.Node
import QmlScript.Table
import QmlScript.Text.CharClass
import QmlScript.Text.Scan

/-!
# Pages about components

A page lists properties, aliases, signals and methods with their documentation. Lines of the form `@param
name:type text` or `@param {type} name - text` describe parameters.
-/

namespace QmlScript.Documentation

structure Parameter where
  name : String
  type : String
  text : String
  isBraced : Bool

def parameterBehind? (s : List Char) : Option Parameter := do
  match s with
  | c :: _ => if Text.isBlank c then pure () else none
  | [] => none
  match Text.dropBlank s with
  | '\x7b' :: s =>
    let (type, rest) := Text.spanWord s
    let (name, rest) := Text.spanWord (← Text.after? ['\x7d', ' '] rest)
    if type.isEmpty || name.isEmpty then none
    let text ← Text.after? ['-'] (Text.dropBlank rest)
    some { name := String.ofList name, type := String.ofList type,
           text := String.ofList (Text.dropBlank text), isBraced := true }
  | s =>
    let (name, rest) := Text.spanWord s
    let (type, rest) := Text.spanWord (← Text.after? [':'] rest)
    if type.isEmpty || name.isEmpty then none
    some { name := String.ofList name, type := String.ofList type,
           text := String.ofList (Text.dropBlank rest), isBraced := false }

/-- The parameter that a line describes; the last description counts. -/
def parameter? : List Char → Option Parameter
  | [] => none
  | c :: s =>
    match parameter? s with
    | some p => some p
    | none => (Text.after? "@param".toList (c :: s)).bind parameterBehind?

def Parameter.value (p : Parameter) : Json :=
  .obj [("name", .str p.name), ("type", .str p.type), ("text", .str p.text)]

def docText (doc : Option String) : String := doc.getD ""

def isInternal (doc : Option String) : Bool :=
  match doc with
  | none => false
  | some text => containsText "@private" text || containsText "@internal" text

def isHandlerName (name : String) : Bool :=
  (startsWithText "on" name && endsWithText "Changed" name) || name = "onCompleted" ||
    name = "constructor"

def describe (doc : Option String) (internal : Bool) : Json :=
  .obj [("text", .str (docText doc)), ("internal", .bool internal)]

def describeMethod (doc : Option String) (name : String) : Json :=
  let internal := isHandlerName name || isInternal doc
  let lines := Text.lines (docText doc).toList
  match lines.head?, lines.getLast? with
  | some first, some last =>
    let parameters := lines.filterMap parameter?
    let summary := if parameters.any (·.isBraced) then first else last
    let text := Text.trimBy (fun c => c = ' ' || c = '*') summary
    .obj [("text", .str (String.ofList text)), ("internal", .bool internal),
      ("params", .arr (parameters.map Parameter.value))]
  | _, _ => describe doc internal

def inside (s : List Char) : List Char := (s.drop 1).dropLast

def withoutQuotes (s : List Char) : List Char :=
  if s.length > 1 then
    let s := if s.head? = some '"' then s.drop 1 else s
    if s.getLast? = some '"' then s.dropLast else s
  else s

abbrev PathMap := Table String String

/-- The page of the component in a property: its directory with dots, less two characters, and its name. -/
def reference? (paths : PathMap) (type : String) : Option String :=
  (paths.get? (type ++ ".qml")).map fun directory =>
    replaceText "/" "." (String.ofList (directory.toList.drop 2)) ++ "/" ++ type

def describeProperty (paths : PathMap) (doc : Option String) (type : String) (value : Tree) : Json :=
  let (initial, reference) : String × Option String :=
    match value with
    | .component _ name _ => (name, reference? paths type)
    | .plain (.str text) => (String.ofList (withoutQuotes (inside text.toList)), none)
    | _ => ("", none)
  .obj ([("text", .str (docText doc)), ("internal", .bool (isInternal doc)), ("type", .str type),
    ("defaultValue", .str initial)] ++ (reference.map fun r => ("ref", Json.str r)).toList)

/-- The sections of a page: a title, and a choice of declarations, each described under its first name. -/
def sections (paths : PathMap) : List (String × (Tree → Option (String × Json))) :=
  [("Properties", fun
      | .property doc type ((name, value) :: _) => some (name, describeProperty paths doc type value)
      | _ => none),
    ("Alias Properties", fun
      | .alias doc name _ => some (name, describe doc (isInternal doc))
      | _ => none),
    ("Signals", fun
      | .signal doc name => some (name, describe doc (isInternal doc))
      | _ => none),
    ("Methods", fun
      | .method doc (name :: _) _ _ _ _ => some (name, describeMethod doc name)
      | _ => none)]

def content (paths : PathMap) (body : List Tree) : Json :=
  .obj <| (sections paths).filterMap fun (title, choose) =>
    match body.filterMap choose with
    | [] => none
    | entries => some (title, Json.ofPairs entries)

end QmlScript.Documentation
