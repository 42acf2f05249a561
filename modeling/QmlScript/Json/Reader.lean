import QmlScript.Json.Value
import QmlScript.Number.Reader

/-!
# Reading JSON texts

The reader accepts the standard grammar and three more words for numbers: `NaN`, `Infinity` and `-Infinity`.
What becomes of the fields of an object is up to a function, which may refuse them.
-/

namespace QmlScript.Json

inductive Problem where
  | value
  | name
  | colon
  | comma
  | openString
  | control
  | escape
  | unit
  | extra
  | mark
  deriving DecidableEq, Repr

def Problem.text : Problem → String
  | .value => "Expecting value"
  | .name => "Expecting property name enclosed in double quotes"
  | .colon => "Expecting ':' delimiter"
  | .comma => "Expecting ',' delimiter"
  | .openString => "Unterminated string starting at"
  | .control => "Invalid control character at"
  | .escape => "Invalid \\escape"
  | .unit => "Invalid \\uXXXX escape"
  | .extra => "Extra data"
  | .mark => "Unexpected UTF-8 BOM (decode using utf-8-sig)"

/-- What is wrong with a text, and the number of characters behind it. -/
structure Fault where
  problem : Problem
  ahead : Nat
  deriving DecidableEq, Repr

def Fault.message (fault : Fault) (text : String) : String :=
  let offset := text.length - fault.ahead
  let before := text.toList.take offset
  let line := before.count '\n' + 1
  let column := (before.reverse.takeWhile (· ≠ '\n')).length + 1
  fault.problem.text ++ s!": line {line} column {column} (char {offset})"

inductive ReadError (ε : Type) where
  | malformed (fault : Fault)
  | number (fault : Number.Fault)
  | refused (cause : ε)
  deriving Repr

def isGap (c : Char) : Bool := c = ' ' || c = '\t' || c = '\n' || c = '\r'

def skipGap (s : List Char) : List Char := s.dropWhile isGap

def unit16? (a b c d : Char) : Option Nat :=
  if [a, b, c, d].all fun c => c.toNat < 128 then Number.readDigits? 16 [a, b, c, d] else none

def escaped? : Char → Option Char
  | '"' => some '"'
  | '\\' => some '\\'
  | '/' => some '/'
  | 'b' => some '\x08'
  | 'f' => some '\x0c'
  | 'n' => some '\n'
  | 'r' => some '\r'
  | 't' => some '\t'
  | _ => none

/-- The character of two halves of a code point beyond the first plane. -/
def joinHalves? (high low : Nat) : Option Char :=
  if 0xd800 ≤ high && high < 0xdc00 && 0xdc00 ≤ low && low < 0xe000 then
    some (Char.ofNat (0x10000 + (high - 0xd800) * 0x400 + (low - 0xdc00)))
  else none

/-- The characters of a string and the text behind it. The first argument counts from the opening quote on. -/
def readString (start : Nat) : List Char → Except Fault (List Char × List Char)
  | [] => .error ⟨.openString, start⟩
  | '"' :: s => .ok ([], s)
  | '\\' :: 'u' :: a :: b :: c :: d :: '\\' :: 'u' :: a' :: b' :: c' :: d' :: s =>
    match unit16? a b c d, unit16? a' b' c' d' with
    | none, _ => .error ⟨.unit, s.length + 11⟩
    | some _, none => .error ⟨.unit, s.length + 5⟩
    | some high, some low =>
      match joinHalves? high low with
      | some ch => do
        let (cs, s) ← readString start s
        return (ch :: cs, s)
      | none => do
        let (cs, s) ← readString start ('\\' :: 'u' :: a' :: b' :: c' :: d' :: s)
        return (Char.ofNat high :: cs, s)
  | '\\' :: 'u' :: a :: b :: c :: d :: s =>
    match if s.isEmpty then none else unit16? a b c d with
    | none => .error ⟨.unit, s.length + 5⟩
    | some n => do
      let (cs, s) ← readString start s
      return (Char.ofNat n :: cs, s)
  | '\\' :: c :: s =>
    match escaped? c with
    | some c => do
      let (cs, s) ← readString start s
      return (c :: cs, s)
    | none => if c = 'u' then .error ⟨.unit, s.length + 1⟩ else .error ⟨.escape, s.length + 2⟩
  | c :: s =>
    if c.toNat < 32 then .error ⟨.control, s.length + 1⟩
    else if c = '\\' then .error ⟨.openString, start⟩
    else do
      let (cs, s) ← readString start s
      return (c :: cs, s)

/-- The whole part of a number: a zero, or digits that start with another. -/
def spanWhole? : List Char → Option (List Char × List Char)
  | '0' :: s => some (['0'], s)
  | s =>
    match s.span Char.isDigit with
    | ([], _) => none
    | parts => some parts

def spanFraction (s : List Char) : List Char × List Char :=
  match s with
  | '.' :: rest =>
    match rest.span Char.isDigit with
    | ([], _) => ([], s)
    | parts => parts
  | _ => ([], s)

def spanExponent (s : List Char) : Option Int × List Char :=
  match s with
  | e :: rest =>
    if e = 'e' || e = 'E' then
      let (negative, digits) := Number.readSign rest
      match digits.span Char.isDigit with
      | ([], _) => (none, s)
      | (digits, rest) =>
        let n : Int := (Number.readDigits? 10 digits).getD 0
        (some (if negative then -n else n), rest)
    else (none, s)
  | [] => (none, s)

/-- A number behind its sign. A whole one may have too many digits. -/
def readNumber? (negative : Bool) (s : List Char) :
    Option (Except Number.Fault Json × List Char) := do
  let (whole, s) ← spanWhole? s
  let (part, s) := spanFraction s
  let (exponent, s) := spanExponent s
  if part.isEmpty && exponent.isNone then
    if Number.mostDigits < whole.length then return (.error (.tooLong whole.length), s)
    let n ← Number.readDigits? 10 whole
    return (.ok (.int (if negative then -(n : Int) else n)), s)
  else
    let n ← Number.readDigits? 10 (whole ++ part)
    return (.ok (.double (Double.ofDecimal negative n (exponent.getD 0 - part.length))), s)

def words : List (List Char × Json) :=
  [("null".toList, .null), ("true".toList, .bool true), ("false".toList, .bool false),
    ("NaN".toList, .double .notANumber), ("Infinity".toList, .double (.infinite false)),
    ("-Infinity".toList, .double (.infinite true))]

def readWord? (s : List Char) : Option (Json × List Char) :=
  words.findSome? fun (word, value) =>
    if word.isPrefixOf s then some (value, s.drop word.length) else none

section

variable {ε : Type} (build : List (String × Json) → Except ε Json)

mutual

def readValue : Nat → List Char → Except (ReadError ε) (Json × List Char)
  | 0, s => .error (.malformed ⟨.value, s.length⟩)
  | depth + 1, s =>
    match s with
    | '"' :: s => do
      let (cs, s) ← (readString (s.length + 1) s).mapError .malformed
      return (.str (String.ofList cs), s)
    | '[' :: s =>
      match skipGap s with
      | ']' :: s => .ok (.arr [], s)
      | s => do
        let (items, s) ← readItems depth s
        return (.arr items, s)
    | '\x7b' :: s =>
      match skipGap s with
      | '\x7d' :: s => do
        let value ← (build []).mapError .refused
        return (value, s)
      | s => do
        let (fields, s) ← readFields depth s
        let value ← (build fields).mapError .refused
        return (value, s)
    | s =>
      match readWord? s with
      | some found => .ok found
      | none =>
        let found? :=
          match s with
          | '-' :: s => readNumber? true s
          | s => readNumber? false s
        match found? with
        | some (value, s) => do return (← value.mapError .number, s)
        | none => .error (.malformed ⟨.value, s.length⟩)

def readItems : Nat → List Char → Except (ReadError ε) (List Json × List Char)
  | 0, s => .error (.malformed ⟨.value, s.length⟩)
  | depth + 1, s => do
    let (item, s) ← readValue depth s
    match skipGap s with
    | ',' :: s =>
      let (items, s) ← readItems depth (skipGap s)
      return (item :: items, s)
    | ']' :: s => return ([item], s)
    | s => throw (.malformed ⟨.comma, s.length⟩)

def readFields : Nat → List Char → Except (ReadError ε) (List (String × Json) × List Char)
  | 0, s => .error (.malformed ⟨.value, s.length⟩)
  | depth + 1, s =>
    match s with
    | '"' :: s => do
      let (key, s) ← (readString (s.length + 1) s).mapError .malformed
      match skipGap s with
      | ':' :: s =>
        let (value, s) ← readValue depth (skipGap s)
        match skipGap s with
        | ',' :: s =>
          let (fields, s) ← readFields depth (skipGap s)
          return ((String.ofList key, value) :: fields, s)
        | '\x7d' :: s => return ([(String.ofList key, value)], s)
        | s => throw (.malformed ⟨.comma, s.length⟩)
      | s => throw (.malformed ⟨.colon, s.length⟩)
    | s => .error (.malformed ⟨.name, s.length⟩)

end

def readWith (text : String) : Except (ReadError ε) Json := do
  let s := text.toList
  if s.head? = some '\ufeff' then throw (.malformed ⟨.mark, s.length⟩)
  let (value, rest) ← readValue build (s.length + 1) (skipGap s)
  let rest := skipGap rest
  if rest.isEmpty then return value else throw (.malformed ⟨.extra, rest.length⟩)

end

/-- The value of a whole text; the last of several fields with one key counts. -/
def read? (text : String) : Option Json :=
  match @readWith Empty (fun pairs => .ok (ofPairs pairs)) text with
  | .ok value => some value
  | .error _ => none

end QmlScript.Json
