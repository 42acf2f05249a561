import QmlScript.Grammar.Expression
import QmlScript.Node
import QmlScript.Text.LetterCase

/-!
# Sources

A source holds one component and nothing else but blanks, comments and imports. Documentation that finds
no declaration in a source waits for the next one, and a comment at the start of a source may document the
root of the source before it.
-/

namespace QmlScript.Grammar

open QmlScript.Grammar.Parser

/-! ## Declarations: several keywords leave no way back, and what follows has to be complete -/

/-- A tree whose declarations are numbered as they are finished. -/
abbrev Marked := Node Nat

def pathNames : Parser (List String) := pathName.sepBy (mark ",")

def plainNames : Parser (List String) := plainName.sepBy (mark ",")

/-- An expression whose numbers can be read. -/
def checkedExpression : Parser String := checked expression

/-- A row of data. -/
def rowDeclaration : Parser Marked := do
  keyword "ListElement"
  let data ← required (checked record)
  return .row data

def signalDeclaration : Parser Marked := do
  keyword "signal"
  let name ← required plainName
  required (mark ";")
  return .signal (← declare) name

def aliasDeclaration : Parser Marked := do
  keyword "property"
  keyword "alias"
  let name ← required plainName
  required (mark ":")
  let target ← required pathName
  required (mark ";")
  return .alias (← declare) name target

/-- A choice of values, maybe with a default. -/
def choiceDeclaration : Parser Marked := do
  keyword "property"
  keyword "enum"
  let name ← required plainName
  required (mark "\x7b")
  let values ← required (choiceName.sepBy (mark ","))
  required (mark "\x7d")
  let default ← optional do
    mark ":"
    required choiceName
  required (mark ";")
  return .choice (← declare) name values default

/-- A property that is computed by code. -/
def codePropertyDeclaration : Parser Marked := do
  keyword "property"
  keyword "const"
  let name ← required plainName
  required (mark ":")
  let body ← required code
  return .property (← declare) "const" [(name, .text body)]

def identifierDeclaration : Parser Marked := do
  keyword "id"
  required (mark ":")
  let name ← required plainName
  required (mark ";")
  return .identifier (← declare) name

/-- A value that is given to a property. -/
def assignmentTo (target : Parser String) : Parser Marked := do
  let target ← target
  mark ":"
  let value ← checkedExpression
  mark ";"
  return .assignment (← declare) target (.text value)

def assignmentDeclaration : Parser Marked := assignmentTo pathName

/-- A property with its initial value, if it has one. -/
def itemOf : Parser (String × Marked) := do
  let name ← plainName
  let value ← optional do
    mark ":"
    checkedExpression
  return (name, (value.map Node.text).getD .absent)

def propertyItems : Parser (List (String × Marked)) := sepBy itemOf (mark ",")

/-- Values for properties of an object. -/
def scopeDeclaration : Parser Marked := do
  let target ← pathName
  mark "\x7b"
  let values ← many1 (assignmentTo plainName)
  mark "\x7d"
  return .scope (← declare) target values

def parenthesisedNames : Parser (List String) := do
  mark "("
  let args ← plainNames
  mark ")"
  return args

/-- A handler for names, with its code. -/
def handlerOf (async : Bool) : Parser Marked := do
  let names ← pathNames
  let args ← optional parenthesisedNames
  mark ":"
  let body ← code
  return .method (← declare) names (args.getD []) body true async

def handlerDeclaration : Parser Marked := do
  let async ← optional (keyword "async")
  handlerOf async.isSome

/-- A method with its arguments and its code. -/
def functionOf (async : Bool) : Parser Marked := do
  keyword "function"
  let name ← required pathName
  required (mark "(")
  let args ← required (optional plainNames)
  required (mark ")")
  let body ← required code
  return .method (← declare) [name] (args.getD []) body false async

def functionDeclaration : Parser Marked := do
  let async ← optional (keyword "async")
  functionOf async.isSome

def constantDeclaration : Parser Marked := do
  keyword "const"
  let type ← propertyType
  let name ← constantName
  mark ":"
  let value ← checked plainValue
  mark ";"
  return .const (← declare) type name value

/-- Refuse a component whose type, without its package, is missing or starts with a small letter. -/
def checkType (type : String) (offset : Nat) : Parser Unit := fun c notes =>
  let last := (Text.splitOn '.' type.toList).getLastD []
  match last with
  | [] => (.miss 0 .typeName, notes)
  | ch :: _ => if Text.isSmall ch then (.miss offset .capital, notes) else (.done () c, notes)

/-- The offset of what comes next. -/
def place : Parser Nat := fun c notes =>
  match skip c notes with
  | (c, notes) => (.done c.offset c, notes)

/-- The body of a component up to its brace, finished if the type is one. -/
def bodyOf (type : String) (start : Nat) (declaration : Parser Marked) : Parser Marked := do
  let body ← many declaration
  mark "\x7d"
  checkType type start
  return .component (← declare) type body

def componentOf (declaration : Parser Marked) : Parser Marked := do
  let start ← place
  let type ← componentType
  mark "\x7b"
  bodyOf type start declaration

/-- The animation of properties. -/
def behaviorOf (component : Parser Marked) : Parser Marked := do
  keyword "Behavior"
  required (keyword "on")
  let targets ← required pathNames
  required (mark "\x7b")
  let animation ← required component
  required (mark "\x7d")
  return .behavior (← declare) targets animation

def plainProperties : Parser (String × List (String × Marked)) := do
  keyword "property"
  let type ← propertyType
  let items ← propertyItems
  mark ";"
  return (type, items)

/-- A property that has a component as its initial value. -/
def objectProperty (component : Parser Marked) : Parser (String × List (String × Marked)) := do
  keyword "property"
  let type ← propertyType
  let name ← plainName
  mark ":"
  let value ← component
  return (type, [(name, value)])

/-- Properties of one type, with values or with a component. -/
def propertyOf (component : Parser Marked) : Parser Marked := do
  let (type, items) ← plainProperties.orElse (objectProperty component)
  return .property (← declare) type items

/-- A component that is given to a property. -/
def assignmentOf (component : Parser Marked) : Parser Marked := do
  let target ← pathName
  mark ":"
  let value ← component
  return .assignment (← declare) target value

/-- A declaration: the alternatives are tried in this order. -/
def declarationOf (component : Parser Marked) : Parser Marked :=
  choice [
    rowDeclaration,
    behaviorOf component,
    signalDeclaration,
    aliasDeclaration,
    choiceDeclaration,
    codePropertyDeclaration,
    propertyOf component,
    identifierDeclaration,
    assignmentDeclaration,
    assignmentOf component,
    component,
    handlerDeclaration,
    functionDeclaration,
    scopeDeclaration,
    constantDeclaration]

mutual

/-- A component with less than `bound` levels inside. -/
def componentUpTo : (bound : Nat) → Parser Marked
  | 0 => fun c notes => (.miss c.offset .anything, notes)
  | bound + 1 => componentOf (declarationUpTo bound)

def declarationUpTo : (bound : Nat) → Parser Marked
  | 0 => fun c notes => (.miss c.offset .anything, notes)
  | bound + 1 => declarationOf (componentUpTo bound)

end

def component : Parser Marked := fun c notes => componentUpTo (3 * c.left + 3) c notes

inductive ParseError where
  | mismatch (offset : Nat) (lack : Lack)
  | incomplete (offset : Nat) (lack : Lack)
  | number (fault : Number.Fault)
  deriving DecidableEq, Repr

/-- What a source leaves for the next: documentation that waits, and a root. -/
structure History where
  pending : Option String := none
  anchor : Anchor := .nothing

/-- What comes of a source, with a new text for an earlier root. -/
structure Outcome where
  result : Except ParseError Tree
  history : History
  amendment : Option String
  warnings : List Warning

/-- The tree with its documentation; the first is the root's. -/
def Notes.resolve (notes : Notes) (tree : Marked) : Tree :=
  (tree.mapDoc fun mark => notes.docs.lookup mark).setDoc notes.root

/-- A component and nothing behind it. -/
def source : Parser Marked := do
  let tree ← component
  let _ ← place
  fun c notes => if c.ahead.isEmpty then (.done tree c, notes) else (.miss c.offset .ending, notes)

/-- The place to start from in a declaration behind this source. -/
def Anchor.behind (succeeded : Bool) : Anchor → Anchor
  | .here _ => if succeeded then .earlierRoot else .stray
  | anchor => anchor

/-- Parse a source behind others. -/
def parse (history : History) (text : String) : Outcome :=
  let start : Notes := { pending := history.pending, anchor := history.anchor }
  match source (.ofText text.toList) start with
  | (reply, notes) =>
    let result : Except ParseError Tree :=
      match notes.fault, reply with
      | some fault, _ => .error (.number fault)
      | none, .done tree _ => .ok (notes.resolve tree)
      | none, .miss offset lack => .error (.mismatch offset lack)
      | none, .stop offset lack => .error (.incomplete offset lack)
    { result
      history :=
        { pending := notes.pending, anchor := notes.anchor.behind result.isOk }
      amendment := notes.amendment
      warnings := notes.warnings.reverse.eraseDups }

def lineOf (text : List Char) (offset : Nat) : Nat := (text.take offset).count '\n' + 1

def columnOf (text : List Char) (offset : Nat) : Nat :=
  (((text.take offset).reverse).takeWhile (· ≠ '\n')).length + 1

end QmlScript.Grammar
