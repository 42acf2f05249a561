import QmlScript.Json.Value
import QmlScript.Number.Reader

/-!
# Writing values

`Json.text` writes a value as a JSON text on one line, in ASCII, and `Json.layout` on many lines.
`Json.display` is the way in which messages show a value. `Json.isWritable` says whether there is a text
at all: a whole number may have too many digits for one.
-/

namespace QmlScript.Json

def stringChar (c : Char) : List Char :=
  if c = '"' then ['\\', '"']
  else if c = '\\' then ['\\', '\\']
  else if c = '\n' then ['\\', 'n']
  else if c = '\r' then ['\\', 'r']
  else if c = '\t' then ['\\', 't']
  else if c = '\x0c' then ['\\', 'f']
  else if c = '\x08' then ['\\', 'b']
  else if 32 ≤ c.toNat && c.toNat < 127 then [c]
  else if c.toNat < 0x10000 then '\\' :: 'u' :: Text.hexDigits 4 c.toNat
  else
    let n := c.toNat - 0x10000
    '\\' :: 'u' :: Text.hexDigits 4 (0xd800 + n / 0x400) ++
      '\\' :: 'u' :: Text.hexDigits 4 (0xdc00 + n % 0x400)

def stringText (s : String) : String := String.ofList ('"' :: s.toList.flatMap stringChar ++ ['"'])

def doubleText : Double → String
  | .infinite negative => if negative then "-Infinity" else "Infinity"
  | .notANumber => "NaN"
  | x => x.text

mutual

def text : Json → String
  | .null => "null"
  | .bool b => if b then "true" else "false"
  | .int n => toString n
  | .double x => doubleText x
  | .str s => stringText s
  | .arr items => "[" ++ ", ".intercalate (itemTexts items) ++ "]"
  | .obj fields => "\x7b" ++ ", ".intercalate (fieldTexts fields) ++ "\x7d"

def itemTexts : List Json → List String
  | [] => []
  | v :: vs => text v :: itemTexts vs

def fieldTexts : List (String × Json) → List String
  | [] => []
  | (k, v) :: fs => (stringText k ++ ": " ++ text v) :: fieldTexts fs

end

def newLine (step depth : Nat) : String :=
  "\n" ++ String.ofList (List.replicate (step * depth) ' ')

mutual

def layoutAt (step depth : Nat) : Json → String
  | .arr [] => "[]"
  | .arr items =>
    "[" ++ newLine step (depth + 1) ++
      ("," ++ newLine step (depth + 1)).intercalate (layoutItems step (depth + 1) items) ++
      newLine step depth ++ "]"
  | .obj [] => "\x7b\x7d"
  | .obj fields =>
    "\x7b" ++ newLine step (depth + 1) ++
      ("," ++ newLine step (depth + 1)).intercalate (layoutFields step (depth + 1) fields) ++
      newLine step depth ++ "\x7d"
  | .null => "null"
  | .bool b => if b then "true" else "false"
  | .int n => toString n
  | .double x => doubleText x
  | .str s => stringText s

def layoutItems (step depth : Nat) : List Json → List String
  | [] => []
  | v :: vs => layoutAt step depth v :: layoutItems step depth vs

def layoutFields (step depth : Nat) : List (String × Json) → List String
  | [] => []
  | (k, v) :: fs => (stringText k ++ ": " ++ layoutAt step depth v) :: layoutFields step depth fs

end

def layout (step : Nat) (value : Json) : String := layoutAt step 0 value

def insertField (key : String) (value : Json) : List (String × Json) → List (String × Json)
  | [] => [(key, value)]
  | (k, v) :: fields =>
    if key < k then (key, value) :: (k, v) :: fields else (k, v) :: insertField key value fields

mutual

def sortKeys : Json → Json
  | .arr items => .arr (sortItems items)
  | .obj fields => .obj (sortFields fields)
  | v => v

def sortItems : List Json → List Json
  | [] => []
  | v :: vs => sortKeys v :: sortItems vs

def sortFields : List (String × Json) → List (String × Json)
  | [] => []
  | (k, v) :: fs => insertField k (sortKeys v) (sortFields fs)

end

mutual

def displayInner : Json → String
  | .null => "None"
  | .bool b => if b then "True" else "False"
  | .int n => toString n
  | .double x => x.text
  | .str s => quotedText s
  | .arr items => "[" ++ ", ".intercalate (displayItems items) ++ "]"
  | .obj fields => "\x7b" ++ ", ".intercalate (displayFields fields) ++ "\x7d"

def displayItems : List Json → List String
  | [] => []
  | v :: vs => displayInner v :: displayItems vs

def displayFields : List (String × Json) → List String
  | [] => []
  | (k, v) :: fs => (quotedText k ++ ": " ++ displayInner v) :: displayFields fs

end

def display : Json → String
  | .str s => s
  | v => displayInner v

mutual

def isWritable : Json → Bool
  | .int n => n.natAbs < Nat.pow 10 Number.mostDigits
  | .arr items => areWritable items
  | .obj fields => areFieldsWritable fields
  | _ => true

def areWritable : List Json → Bool
  | [] => true
  | v :: vs => isWritable v && areWritable vs

def areFieldsWritable : List (String × Json) → Bool
  | [] => true
  | (_, v) :: fs => isWritable v && areFieldsWritable fs

end

end QmlScript.Json
