import QmlScript.Markup.Lexeme
import QmlScript.Text.Charset

/-!
# The head of a document

A document may begin with a line about itself: its version, its encoding, and whether it stands alone.
Files are UTF-8 unless it says otherwise; a file with a zero among its first two bytes has two bytes for
each character.
-/

namespace QmlScript.Markup

inductive ReadError where
  | malformed
  | encoding (cause : Text.EncodingError)
  deriving DecidableEq, Repr

structure Head where
  encoding : Option String := none
  standsAlone : Bool := false

namespace Head

def isValueChar (c : Char) : Bool := c.isAlphanum || c = '.' || c = '-' || c = '_'

/-- A name with its value behind blanks; `none` inside if only blanks are left. -/
def attribute? (s : List Char) : Option (Option (String × String) × List Char) :=
  let inside := skipGap s
  if inside.isEmpty then some (none, [])
  else if inside.length = s.length then none
  else
    let (name, rest) := inside.span fun c => c ≠ '=' && !isGap c
    match skipGap rest with
    | '=' :: rest =>
      match skipGap rest with
      | quote :: rest =>
        let (value, rest) := rest.span isValueChar
        if (quote = '"' || quote = '\'') && rest.head? = some quote && !name.isEmpty then
          some (some (String.ofList name, String.ofList value), rest.drop 1)
        else none
      | [] => none
    | _ => none

def attributes? : (bound : Nat) → List Char → Option (List (String × String))
  | 0, _ => none
  | bound + 1, s => do
    match ← attribute? s with
    | (none, _) => some []
    | (some found, rest) => return found :: (← attributes? bound rest)

def alone? (value : String) : Option Bool :=
  if value = "yes" then some true else if value = "no" then some false else none

def ofAttributes? : List (String × String) → Option Head
  | [("version", _)] => some {}
  | [("version", _), ("encoding", name)] =>
    if name.toList.head?.any Char.isAlpha then some { encoding := some name } else none
  | [("version", _), ("standalone", value)] => do return { standsAlone := ← alone? value }
  | [("version", _), ("encoding", name), ("standalone", value)] => do
    if name.toList.head?.any Char.isAlpha then
      return { encoding := some name, standsAlone := ← alone? value }
    else none
  | _ => none

/-- The head of a text, maybe an empty one, and what follows. -/
def read? (s : List Char) : Option (Head × List Char) :=
  match Text.after? "<?xml".toList s with
  | none => some ({}, s)
  | some rest =>
    if rest.head?.any isGap || Text.startsWith "?>".toList rest then do
      let (inside, behind) ← Text.cutAt? "?>".toList rest
      return (← ofAttributes? (← attributes? (inside.length + 1) inside), behind)
    else some ({}, s)

end Head

def bytesOf (s : List Char) : List UInt8 := (String.ofList s).toUTF8.toList

def pairs? (isGreatFirst : Bool) : List UInt8 → Option (List Nat)
  | [] => some []
  | [_] => none
  | a :: b :: bytes =>
    let unit := if isGreatFirst then 256 * a.toNat + b.toNat else 256 * b.toNat + a.toNat
    (pairs? isGreatFirst bytes).map (unit :: ·)

/-- The characters of numbers of two bytes; outside the first plane two are one. -/
def unitChars? : List Nat → Option (List Char)
  | [] => some []
  | unit :: units =>
    if 0xd800 ≤ unit && unit < 0xdc00 then
      match units with
      | low :: units =>
        if 0xdc00 ≤ low && low < 0xe000 then
          let number := 0x10000 + 0x400 * (unit - 0xd800) + (low - 0xdc00)
          (unitChars? units).map (Char.ofNat number :: ·)
        else none
      | [] => none
    else if 0xdc00 ≤ unit && unit < 0xe000 then none
    else (unitChars? units).map (Char.ofNat unit :: ·)

def recode (name : String) (s : List Char) : Except ReadError (List Char) :=
  let among (set : Text.Charset) : Except ReadError (List Char) :=
    match (bytesOf s).mapM set.char? with
    | some chars => .ok chars
    | none => .error .malformed
  match name.toLower with
  | "utf-8" => .ok s
  | "iso-8859-1" => among .latin
  | "us-ascii" => among .ascii
  | "utf-16" | "utf-16be" | "utf-16le" => .error .malformed
  | _ =>
    match Text.Encoding.ofName? name with
    | none => .error (.encoding (.unknown name))
    | some (.single set) => among set
    | some .wide => .error (.encoding .wide)
    | some .foreign => .error .malformed
    | some .notText => .error (.encoding (.notText name))
    | some .refused => .error (.encoding (.refused name))
    | some .outOfRange => .error (.encoding .outOfRange)

def isWideName (isGreatFirst : Bool) (name : String) : Bool :=
  name.toLower = "utf-16" || name.toLower = if isGreatFirst then "utf-16be" else "utf-16le"

def startsGreat (s : List Char) : Bool := s.head? = some '\x00'

def startsSmall : List Char → Bool
  | a :: b :: _ => a.toNat < 128 && b = '\x00'
  | _ => false

def decodeNarrow (s : List Char) : Except ReadError (Head × List Char) :=
  match Head.read? (if s.head? = some '\ufeff' then s.drop 1 else s) with
  | none => .error .malformed
  | some (head, rest) =>
    match head.encoding with
    | none => .ok (head, rest)
    | some name => (recode name rest).map (head, ·)

def decodeWide (isGreatFirst : Bool) (s : List Char) : Except ReadError (Head × List Char) :=
  match ((pairs? isGreatFirst (bytesOf s)).bind unitChars?).bind Head.read? with
  | none => .error .malformed
  | some (head, rest) =>
    if head.encoding.all (isWideName isGreatFirst) then .ok (head, rest) else .error .malformed

def decode (s : List Char) : Except ReadError (Head × List Char) := do
  let (head, chars) ←
    if startsGreat s then decodeWide true s
    else if startsSmall s then decodeWide false s
    else decodeNarrow s
  if chars.all isLegal then return (head, Text.unifyBreaks chars) else throw .malformed

end QmlScript.Markup
