import QmlScript.Table
import QmlScript.Text.CharClass
import QmlScript.Text.Scan

/-!
# References in scripts

Components live in packages, whose names have dots in them. In a script a package is an object inside
the object of the package around it, and a variable with dollar signs stands for it. A reference `$\x7ba.b.c\x7d`
becomes a path that starts at the object of the expression, and the value depends on the property that it ends in.
-/

namespace QmlScript.Package

/-- A full name as its package, empty without a dot, and the name in it. -/
def splitName (name : String) : String × String := (cutLastText? '.' name).getD ("", name)

def ofName (name : String) : String := (splitName name).1

def isIdChar (c : Char) : Bool := c.isAlphanum || c = '_'

/-- The name with underscores for what is no word character. -/
def escape (name : String) : String :=
  String.ofList (name.toList.map fun c => if Text.isWordChar c then c else '_')

/-- The name with an underscore for each character that no ASCII name has. -/
def escapeId (name : String) : String :=
  String.ofList (name.toList.map fun c => if isIdChar c then c else '_')

def escapeSegments (package : String) : String :=
  ".".intercalate ((splitText '.' package).map escapeId)

def mangle (package : String) : String :=
  let segments := (splitText '.' package).map escapeId
  let segments :=
    match segments with
    | "_globals" :: segments => segments
    | segments => segments
  "$".intercalate ("" :: segments)

end QmlScript.Package

namespace QmlScript.Script

/-! ## References: those to the manifest depend on nothing, those to the model on a row -/

abbrev Dependency := String × String

section

variable {m : Type → Type} [Monad m]

def joinPath (transform : String → m String) : List String → m String
  | [] => return ""
  | head :: path => return ".".intercalate ((← transform head) :: path)

def pathOrParent (path parent : String) (transform : String → m String) : m String :=
  if path = "parent" then return parent ++ ".parent"
  else if path = "" then return parent
  else joinPath transform (splitText '.' path)

/-- The object that a path ends in, and the name of its property. -/
def accessors (parent target : String) (transform : String → m String) : m (String × String) := do
  let path := splitText '.' target
  let owner := path.dropLast
  let name := path.getLastD ""
  if owner.isEmpty then return (parent, name)
  else return (parent ++ "." ++ (← joinPath transform owner), name)

/-- The inside of a reference, up to a closing brace on the line. -/
def reference? : Text.Recogniser String
  | '$' :: '\x7b' :: s =>
    let inside := s.takeWhile fun c => c ≠ '\x7d' && c ≠ '\n'
    match s.drop inside.length with
    | '\x7d' :: _ => some (String.ofList inside, inside.length + 3)
    | _ => none
  | _ => none

def localizers : List String := ["qsTr", "qsTranslate", "tr"]

/-- Whether a call of a localizer starts behind the first character. -/
def callsLocalizer : List Char → Bool
  | c :: s => !Text.isWordChar c && localizers.any fun f => Text.startsWith (f ++ "(").toList s
  | [] => false

def isLocalized : List Char → Bool
  | [] => false
  | c :: s => callsLocalizer (c :: s) || isLocalized s

def resolve (parent : String) (transform : String → m String) (inside : String) :
    m (String × Option Dependency) := do
  let path := splitText '.' inside
  let target := path.getLastD ""
  let owner := path.dropLast
  match path with
  | "manifest" :: _ :: _ => return ("$" ++ "$".intercalate path, none)
  | "model" :: field :: _ =>
    let signal := if field = "index" then "_rowIndex" else "_row"
    let script := parent ++ "." ++ (← joinPath transform path)
    return (script, some (parent ++ "._get('_delegate')", signal))
  | _ =>
    let object ← if owner.isEmpty then pure parent
      else (parent ++ "." ++ ·) <$> joinPath transform owner
    let script := parent ++ "." ++ (← joinPath transform path)
    -- the parent of an object never changes
    return (script, if target = "parent" then none else some (object, target))

def resolvePieces (parent : String) (transform : String → m String) :
    List (Char ⊕ String) → m (List Char × List Dependency)
  | [] => return ([], [])
  | .inl c :: pieces => do
    let (text, deps) ← resolvePieces parent transform pieces
    return (c :: text, deps)
  | .inr inside :: pieces => do
    let (script, dep) ← resolve parent transform inside
    let (text, deps) ← resolvePieces parent transform pieces
    return (script.toList ++ text, dep.toList ++ deps)

/-- The script of a text with references, and its sorted dependencies. -/
def dependencies (parent text : String) (transform : String → m String) :
    m (String × List Dependency) := do
  let language : List Dependency :=
    if isLocalized text.toList then [(parent ++ "._context", "language")] else []
  let (script, deps) ← resolvePieces parent transform (Text.pieces reference? text.toList)
  return (String.ofList script, orderedSet pairLt (language ++ deps))

end

/-- The owner of a target, the target and the name of its property. -/
def assignmentTarget (parent target : String) : String × String × String :=
  let path := splitText '.' target
  let owner := parent :: path.dropLast
  let name := path.getLastD ""
  (".".intercalate owner, ".".intercalate (owner ++ [name]), name)

/-! ## Code of functions: identifiers of objects are looked up at its start -/

/-- The length of the further segments of a path, at most `bound`: a dot and a word with blanks around. -/
def pathTail : Nat → List Char → Nat
  | 0, _ => 0
  | bound + 1, s =>
    match s with
    | '.' :: s =>
      let gap := s.takeWhile Text.isBlank
      let word := (s.drop gap.length).takeWhile Text.isWordChar
      let rest := (s.drop gap.length).drop word.length
      let gap' := rest.takeWhile Text.isBlank
      if word.isEmpty then 0
      else
        let size := 1 + gap.length + word.length + gap'.length
        size + pathTail bound (rest.drop gap'.length)
    | _ => 0

/-- The word that a path starts with, together with the blanks behind it. -/
def pathHead? : Text.Recogniser String := fun s =>
  let word := s.takeWhile Text.isWordChar
  if word.isEmpty then none
  else
    let rest := s.drop word.length
    let gap := rest.takeWhile Text.isBlank
    let rest := rest.drop gap.length
    some (String.ofList (word ++ gap), word.length + gap.length + pathTail (rest.length + 1) rest)

/-- The identifiers that paths start with, arguments apart, sorted. -/
def usedIds (ids : List String) (args : List String) (code : String) : List String :=
  orderedSet textLt <| (Text.findAll pathHead? code.toList).filter fun name =>
    ids.contains name && !args.contains name

def lookUps (ids : List String) : String :=
  "\n\tvar " ++ ", ".intercalate (ids.map fun id => id ++ " = this._get('" ++ id ++ "', true)") ++ "\n"

def behindBrace? (put : String) (code : String) : Option String :=
  (cutFirstText? '\x7b' code).map fun (front, back) => front ++ "\x7b" ++ put ++ back

def capitalWord? (s : List Char) : Option (List Char × List Char) :=
  match s with
  | c :: rest => if c.isUpper then some (s.takeWhile Text.isWordChar, rest.dropWhile Text.isWordChar)
    else none
  | [] => none

def choiceValue? : Text.Recogniser (String × String) := fun s => do
  let (type, rest) ← capitalWord? s
  match rest with
  | '.' :: rest =>
    let (value, _) ← capitalWord? rest
    some ((String.ofList type, String.ofList value), type.length + 1 + value.length)
  | _ => none

section

variable {m : Type → Type} [Monad m]

def replaceChoicePieces (find : String → m (Option String)) :
    List (Char ⊕ (String × String)) → m (List Char)
  | [] => return []
  | .inl c :: pieces => return c :: (← replaceChoicePieces find pieces)
  | .inr (type, value) :: pieces => do
    let put :=
      match ← find type with
      | some component => "_globals." ++ component ++ ".prototype." ++ value
      | none => type ++ "." ++ value
    return put.toList ++ (← replaceChoicePieces find pieces)

def replaceChoices (find : String → m (Option String)) (text : String) : m String := do
  return String.ofList (← replaceChoicePieces find (Text.pieces choiceValue? text.toList))

end

end QmlScript.Script
