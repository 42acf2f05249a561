import QmlScript.Grammar.Token
import QmlScript.Json.Writer

/-!
# Expressions

An expression is read as the text that stands for it in generated code. Names become references
`$\x7bname\x7d`, a call of a function with a small initial becomes a call on the context, and a list of values
its JSON text. The first operator of a level counts only if an operand follows it that is read to its end.
-/

namespace QmlScript.Grammar

open QmlScript.Grammar.Parser

def percentText (value : Json) : String :=
  let isWhole :=
    match value with
    | .int n => n == 100
    | .double x => x.equalsNat 100
    | _ => false
  if isWhole then "($\x7bparent.<property-name>\x7d)"
  else "((" ++ value.display ++ ") / 100 * $\x7bparent.<property-name>\x7d)"

def scaleText (value : Json) : String :=
  "((" ++ value.display ++ ") * $\x7bcontext.<scale-property-name>\x7d)"

def referenceText (path : String) : String := "$\x7b" ++ path ++ "\x7d"

def callText (function : String) (arguments : List String) : String :=
  let function :=
    if function.toList.head?.any Char.isLower then
      if function.toList.contains '.' then referenceText function else "$this._context." ++ function
    else function
  function ++ "(" ++ ",".intercalate arguments ++ ")"

def parenthesised (text : String) : String := "(" ++ text ++ ")"

def unaryOperator : Parser String := oneOf ["!", "~", "+", "-", "typeof"]

/-- The binary operators, from the tightest level to the loosest. -/
def binaryOperators : List (List String) := [
  ["*", "/", "%"],
  ["+", "-"],
  ["<<", ">>"],
  ["<=", "<", ">=", ">", "instanceof", "in"],
  ["===", "==", "!==", "!="],
  ["&"],
  ["^"],
  ["|"],
  ["&&"],
  ["||"]]

def operation (operator operand : Parser String) : Parser String := do
  let sign ← operator
  let text ← operand
  return sign ++ " " ++ text

def binaryLevel (operators : List String) (tighter : Parser String) : Parser String := do
  let first ← tighter
  match ← tentative (operation (oneOf operators) tighter) with
  | none => return first
  | some second =>
    let others ← many (operation (oneOf operators) tighter)
    return " ".intercalate (first :: second :: others)

def binaryLevels : List (List String) → Parser String → Parser String
  | [], tighter => tighter
  | operators :: levels, tighter => binaryLevels levels (binaryLevel operators tighter)

def branches (expression : Parser String) : Parser (String × String) := do
  mark "?"
  let yes ← expression
  mark ":"
  let no ← expression
  return (yes, no)

def truthText : Parser String := truthValue.bind fun b => Parser.pure (if b then "true" else "false")

def written (text : Json → String) (value : Json) : Parser String := fun c notes =>
  (.done (text value) c,
    if value.isWritable then notes else { notes with fault := notes.fault <|> some .unwritable })

def percentage : Parser String :=
  number.bind fun value => (mark "%").bind fun _ => written percentText value

def multiple : Parser String :=
  number.bind fun value => (mark "s").bind fun _ => written scaleText value

def numeral : Parser String := number.bind (written Json.display)

/-- A call of a function; arguments may also come one by one behind it. -/
def call (expression : Parser String) : Parser String := do
  let function ← functionName
  mark "("
  let arguments ← optional (sepBy expression (mark ","))
  mark ")"
  let others ← many do
    mark "."
    mark "arg"
    mark "("
    let argument ← expression
    mark ")"
    return argument
  return callText function (arguments.getD [] ++ others)

def item (expression : Parser String) : Parser String := do
  let path ← pathName
  mark "["
  let index ← expression
  mark "]"
  return "(" ++ referenceText path ++ "[" ++ index ++ "])"

def member : Parser String := do
  let type ← choiceName
  mark "."
  let value ← choiceName
  return type ++ "." ++ value

def listing : Parser String := do
  mark "["
  let items ← required (optional (sepBy plainValue (mark ",")))
  required (mark "]")
  written Json.text (.arr (items.getD []))

def reference : Parser String := pathName.bind fun path => Parser.pure (referenceText path)

def inParentheses (p : Parser String) : Parser String := p.bind fun text =>
  Parser.pure (parenthesised text)

def group (expression : Parser String) : Parser String := do
  mark "("
  let inner ← expression
  mark ")"
  return inner

def conditionalOf (unary conditional : Parser String) : Parser String := do
  let first ← binaryLevels binaryOperators unary
  match ← tentative (branches conditional) with
  | none => return first
  | some (yes, no) => return first ++ " ? " ++ yes ++ " : " ++ no

def unaryOf (operand unary : Parser String) : Parser String := do
  match ← tentative (operation unaryOperator unary) with
  | some text => return text
  | none => operand

def operandOf (conditional : Parser String) : Parser String :=
  let expression := inParentheses conditional
  choice [
    nullWord,
    truthText,
    percentage,
    multiple,
    numeral,
    quotedLiteral,
    call expression,
    item expression,
    member,
    listing,
    reference,
    group expression]

mutual

def conditional : (bound : Nat) → Parser String
  | 0 => fun c notes => (.miss c.offset .anything, notes)
  | bound + 1 => conditionalOf (unary bound) (conditional bound)

def unary : (bound : Nat) → Parser String
  | 0 => fun c notes => (.miss c.offset .anything, notes)
  | bound + 1 => unaryOf (operand bound) (unary bound)

def operand : (bound : Nat) → Parser String
  | 0 => fun c notes => (.miss c.offset .anything, notes)
  | bound + 1 => operandOf (conditional bound)

end

def expression : Parser String := telling .expression fun c notes =>
  inParentheses (conditional (3 * c.left + 3)) c notes

end QmlScript.Grammar
