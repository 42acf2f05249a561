import QmlScript.Grammar.Trivia
import QmlScript.Json.Value

/-!
# Words

The words of the language: fixed marks, keywords, names and quoted strings. Each of them may be
preceded by blanks, comments and imports, and goes wrong at the place behind these.
-/

namespace QmlScript.Grammar

open QmlScript.Grammar.Parser

/-- A word recognised by its characters: `find` says what stands ahead, and `lack` what is lacking. -/
def token {α : Type} (lack : Lack) (find : Text.Recogniser α) : Parser α := fun c notes =>
  match skip c notes with
  | (c, notes) =>
    match find c.ahead with
    | some (found, size) => (.done found (c.advance size), notes)
    | none => (.miss c.offset lack, notes)

def mark (word : String) : Parser Unit := token (.mark word) (Text.literal word.toList)

def oneOf (words : List String) : Parser String :=
  token .anything fun s => (words.find? fun word => Text.startsWith word.toList s).map fun word =>
    (word, word.length)

/-- A keyword, which may not be part of a longer word. -/
def keyword (word : String) : Parser Unit := fun c notes =>
  match skip c notes with
  | (c, notes) =>
    match keywordAt word.toList c with
    | .here => (.done () (c.advance word.length), notes)
    | .absent => (.miss c.offset (.keyword word false), notes)
    | .runsOn => (.miss (c.offset + word.length) (.keyword word true), notes)
    | .runsInto => (.miss (c.offset - 1) (.keyword word false), notes)

/-- The longest word of the given classes of first and other characters. -/
def spanName (first rest : Char → Bool) : Text.Recogniser String
  | [] => none
  | ch :: s =>
    if first ch then
      let name := ch :: s.takeWhile rest
      some (String.ofList name, name.length)
    else none

def name (lack : Lack) (first rest : Char → Bool) : Parser String := token lack (spanName first rest)

def isNameStart (c : Char) : Bool := c.isLower || c = '_'

def isChoiceStart (c : Char) : Bool := c.isUpper || c = '_'

def isNameChar (c : Char) : Bool := c.isAlphanum || c = '_'

def isPathChar (c : Char) : Bool := isNameChar c || c = '.'

def propertyType : Parser String := name (.name "A-Za-z" "0-9A-Za-z") Char.isAlpha Char.isAlphanum

def componentType : Parser String :=
  name (.name "A-Z_a-z" ".0-9A-Z_a-z") (fun c => c.isAlpha || c = '_') isPathChar

def constantName : Parser String := name (.name "A-Z" "0-9A-Z_a-z") Char.isUpper isNameChar

def plainName : Parser String := name (.name "_a-z" "0-9A-Z_a-z") isNameStart isNameChar

def pathName : Parser String := name (.name "_a-z" ".0-9A-Z_a-z") isNameStart isPathChar

def choiceName : Parser String := name (.name "A-Z_" "0-9A-Za-z") isChoiceStart Char.isAlphanum

def functionName : Parser String := name .anything isPathChar isPathChar

def quotedTail? (quote : Char) : List Char → Option Nat
  | [] => none
  | '\\' :: [] => none
  | '\\' :: _ :: s => (quotedTail? quote s).map (· + 2)
  | c :: s => if c = quote then some 1 else (quotedTail? quote s).map (· + 1)

def isQuote (c : Char) : Bool := c = '"' || c = '\'' || c = '\x60'

def quotedString? : List Char → Option Nat
  | c :: s => if isQuote c then (quotedTail? c s).map (· + 1) else none
  | [] => none

/-- A character of a string literal; control characters that move the cursor are escaped. -/
def literalChar (c : Char) : List Char :=
  if c = '\t' then ['\\', 't']
  else if c = '\r' then ['\\', 'r']
  else if c = '\n' then ['\\', 'n']
  else if c = '\x0b' then ['\\', 'v']
  else if c = '\x0c' then ['\\', 'f']
  else [c]

def literalText (s : List Char) : List Char := s.flatMap literalChar

def quotedLiteral : Parser String :=
  token .anything fun s => (quotedString? s).map fun size => (String.ofList (literalText (s.take size)), size)

def hexEscape? (digits : Nat) (s : List Char) : Option (List Char × Nat) :=
  let code := s.take digits
  if code.length = digits && code.all fun c => c.toNat < 128 then
    (Number.readDigits? 16 code).map fun n => ([Char.ofNat n], digits)
  else none

def letterEscape? (small capital : Char) (digits : Nat) : Text.Recogniser (List Char)
  | '\\' :: c :: s =>
    if c = small || c = capital then
      (hexEscape? digits s).map fun (put, size) => (put, size + 2)
    else none
  | _ => none

def octalEscape? : Text.Recogniser (List Char)
  | '\\' :: s =>
    let code := s.take 3
    if code.length = 3 && code.all fun c => '0' ≤ c && c ≤ '7' then
      (Number.readDigits? 8 code).map fun n => ([Char.ofNat n], 4)
    else none
  | _ => none

def isHexDigit (c : Char) : Bool := c.toNat < 128 && (Text.hexValue? c).isSome

def digitEscape? : Text.Recogniser (List Char)
  | '\\' :: d :: s =>
    if d.isDigit then
      let code := d :: (s.take 3).takeWhile isHexDigit
      (Number.readDigits? 16 code).map fun n => ([Char.ofNat n], code.length + 1)
    else none
  | _ => none

def escapedChar (c : Char) : Char :=
  match c with
  | '0' => '\x00'
  | 'n' => '\n'
  | 'r' => '\r'
  | 'v' => '\x0b'
  | 't' => '\t'
  | 'b' => '\x08'
  | 'f' => '\x0c'
  | c => c

def charEscape? : Text.Recogniser (List Char)
  | '\\' :: c :: _ => if c = '\n' then none else some ([escapedChar c], 2)
  | _ => none

/-- The text a string literal means. Escapes are resolved kind after kind: two hexadecimal digits, four, three octal
ones, old numbers, single characters. -/
def unquote (s : List Char) : List Char :=
  let s := Text.substitute (letterEscape? 'x' 'X' 2) s
  let s := Text.substitute (letterEscape? 'u' 'U' 4) s
  let s := Text.substitute octalEscape? s
  let s := Text.substitute digitEscape? s
  Text.substitute charEscape? s

def inner (s : List Char) : List Char := (s.drop 1).dropLast

def quotedMeaning : Parser String :=
  token .anything fun s => (quotedString? s).map fun size =>
    (String.ofList (unquote (inner (literalText (s.take size)))), size)

def isNumberChar (c : Char) : Bool := c.isDigit || c = '+' || c = '-' || c = '.'

/-- The text of a number; it goes wrong behind `0x` if no digit follows. -/
def numberText : Parser String := fun c notes =>
  match skip c notes with
  | (c, notes) =>
    let start := if Text.startsWith ['0', 'x'] c.ahead then 2 else 0
    let size := ((c.ahead.drop start).takeWhile isNumberChar).length
    if size = 0 then (.miss (c.offset + start) .anything, notes)
    else (.done (String.ofList (c.ahead.take (start + size))) (c.advance (start + size)), notes)

def numberValue (text : String) : Except Number.Fault Json :=
  if startsWithText "0x" text then
    (Number.readInt 16 (String.ofList (text.toList.drop 2))).map Json.int
  else if text.toList.contains '.' then (Number.readDouble text).map Json.double
  else (Number.readInt 10 text).map Json.int

/-- A number; the first one that cannot be read is noted. -/
def number : Parser Json := numberText.bind fun text c notes =>
  match numberValue text with
  | .ok value => (.done value c, notes)
  | .error fault => (.done .null c, { notes with fault := notes.fault <|> some fault })

/-! ## Blocks of code: braces inside complete strings and comments do not count -/

def opensQuoted (s : List Char) : Bool :=
  (quotedString? s).isSome || (blockComment? s).isSome || (lineComment? s).isSome

/-- The length of a run of code: up to a brace, a blank, a string or a comment. -/
def codeRun : List Char → Nat
  | [] => 0
  | c :: s =>
    if c = '\x7b' || c = '\x7d' || isGap c || opensQuoted (c :: s) then 0 else codeRun s + 1

def codeItem (items : Parser Unit) : Parser Unit := fun here notes =>
  match codeRun here.ahead with
  | 0 =>
    match here.ahead with
    | '\x7d' :: _ => (.done () (here.advance 1), notes)
    | _ => (.miss here.offset .anything, notes)
  | size + 1 => items (here.advance (size + 1)) notes

def blockOf (items : Parser Unit) : Parser Unit := fun c notes =>
  match c.ahead with
  | '\x7b' :: _ => items (c.advance 1) notes
  | _ => (.miss c.offset .anything, notes)

def itemsOf (block items : Parser Unit) : Parser Unit := fun c notes =>
  let here := skipGap c
  match skip c notes with
  | (next, notes) =>
    match quotedString? next.ahead with
    | some size => items (next.advance size) notes
    | none =>
      match blockComment? here.ahead <|> lineComment? here.ahead with
      | some size => items (here.advance size) notes
      | none =>
        match block next notes with
        | (.done _ next, notes) => items next notes
        | (_, notes) => codeItem items here notes

mutual

def blockUpTo : (bound : Nat) → Parser Unit
  | 0 => fun c notes => (.miss c.offset .anything, notes)
  | bound + 1 => blockOf (blockItems bound)

def blockItems : (bound : Nat) → Parser Unit
  | 0 => fun c notes => (.miss c.offset .anything, notes)
  | bound + 1 => itemsOf (blockUpTo bound) (blockItems bound)

end

def code : Parser String := fun c notes =>
  match skip c notes with
  | (c, notes) =>
    match blockUpTo (3 * c.left + 3) c notes with
    | (.done _ next, notes) =>
      (.done (String.ofList (c.ahead.take (next.offset - c.offset))) next, notes)
    | (.miss offset _, notes) => (.miss offset .block, notes)
    | (.stop offset lack, notes) => (.stop offset lack, notes)

/-! ## Plain values: a relaxed JSON, whose word for null means the text of that word -/

def truthValue : Parser Bool :=
  ((keyword "true").bind fun _ => Parser.pure true).orElse
    ((keyword "false").bind fun _ => Parser.pure false)

def nullWord : Parser String := (keyword "null").bind fun _ => Parser.pure "null"

def plainValueOf (record value : Parser Json) : Parser Json :=
  choice [
    nullWord.bind fun word => Parser.pure (.str word),
    truthValue.bind fun b => Parser.pure (.bool b),
    number,
    quotedMeaning.bind fun s => Parser.pure (.str s),
    (mark "[").bind fun _ => (value.sepBy (mark ",")).bind fun items =>
      (mark "]").bind fun _ => Parser.pure (.arr items),
    record]

def recordOf (value : Parser Json) : Parser Json := do
  mark "\x7b"
  let fields ← sepBy
    (optional (do
      let key ← orElse quotedMeaning plainName
      mark ":"
      let value ← value
      return (key, value)))
    (orElse (mark ";") (mark ","))
  mark "\x7d"
  return Json.ofPairs (fields.filterMap id)

mutual

def valueUpTo : (bound : Nat) → Parser Json
  | 0 => fun c notes => (.miss c.offset .anything, notes)
  | bound + 1 => plainValueOf (recordUpTo bound) (valueUpTo bound)

def recordUpTo : (bound : Nat) → Parser Json
  | 0 => fun c notes => (.miss c.offset .anything, notes)
  | bound + 1 => recordOf (valueUpTo bound)

end

def plainValue : Parser Json := fun c notes => valueUpTo (3 * c.left + 3) c notes

def record : Parser Json := fun c notes => recordUpTo (3 * c.left + 3) c notes

end QmlScript.Grammar
