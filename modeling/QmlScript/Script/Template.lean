import QmlScript.Error
import QmlScript.Text.Scan

/-!
# Names and arguments in scripts

The text of a percentage or of a multiple of the scale has a placeholder for the name of its property. The
name is put in as a replacement text, in which a backslash starts an escape. A call `COPY_ARGS(name, index)`, with or
without something else to start with, is replaced by a loop over the arguments.
-/

namespace QmlScript.Script

inductive Piece where
  | char (c : Char)
  | whole
  deriving DecidableEq

def isOctal (c : Char) : Bool := '0' ≤ c && c ≤ '7'

def controlEscape? : Char → Option Char
  | 'a' => some '\x07'
  | 'b' => some '\x08'
  | 'f' => some '\x0c'
  | 'n' => some '\n'
  | 'r' => some '\r'
  | 't' => some '\t'
  | 'v' => some '\x0b'
  | '\\' => some '\\'
  | _ => none

def octalValue (digits : List Char) : Nat :=
  digits.foldl (fun n c => n * 8 + (c.toNat - '0'.toNat)) 0

/-- A reference to a group by its number: only the whole exists. -/
def groupPiece (digits : List Char) : Except Error Piece :=
  if digits.all (· = '0') then .ok .whole else .error .badEscape

def namedGroup (name : List Char) : Except Error Piece :=
  if name.isEmpty then .error .badEscape
  else if name.all Char.isDigit then groupPiece name
  else if name.all Text.isWordChar && !(name.head?.any fun c => (Text.digitValue? c).isSome) then
    .error .unknownGroup
  else .error .badEscape

def replacementPieces : (bound : Nat) → List Char → Except Error (List Piece)
  | 0, _ => .ok []
  | _, [] => .ok []
  | bound + 1, '\\' :: s =>
    match s with
    | [] => .error .badEscape
    | 'g' :: '<' :: s => do
      let name := s.takeWhile (· ≠ '>')
      if name.length = s.length then throw .badEscape
      return (← namedGroup name) :: (← replacementPieces bound (s.drop (name.length + 1)))
    | '0' :: s => do
      let digits := (s.take 2).takeWhile isOctal
      return .char (Char.ofNat (octalValue digits % 256)) ::
        (← replacementPieces bound (s.drop digits.length))
    | c :: s =>
      if c.isDigit then
        match s with
        | d :: e :: s' =>
          if isOctal c && isOctal d && isOctal e then do
            if 255 < octalValue [c, d, e] then throw .badEscape
            return .char (Char.ofNat (octalValue [c, d, e])) :: (← replacementPieces bound s')
          else .error .badEscape
        | _ => .error .badEscape
      else
        match controlEscape? c with
        | some control => do return .char control :: (← replacementPieces bound s)
        | none =>
          if c.isAlpha then .error .badEscape
          else do return .char '\\' :: .char c :: (← replacementPieces bound s)
  | bound + 1, c :: s => do return .char c :: (← replacementPieces bound s)

def replacement (text whole : String) : Except Error (List Char) := do
  let s := text.toList
  let pieces ← replacementPieces (s.length + 1) s
  return pieces.flatMap fun
    | .char c => [c]
    | .whole => whole.toList

def namePlaceholder : String := "<property-name>"

def scalePlaceholder : String := "<scale-property-name>"

def measuredName (target : String) : String :=
  let name := (cutLastText? '.' target).elim target (·.2)
  if name = "x" then "width" else if name = "y" then "height" else name

def fillTemplate (target value : String) : Except Error String := do
  let name ← replacement (measuredName target) namePlaceholder
  let value := Text.replaceAll namePlaceholder.toList name value.toList
  return String.ofList
    (Text.replaceAll scalePlaceholder.toList "virtualScale".toList value)

structure CopyArgs where
  text : List Char
  name : List Char
  index : List Char
  first : Option (List Char)

/-- The characters up to one of the stops on the line, and the rest. -/
def upTo? (stops : List Char) (s : List Char) : Option (List Char × List Char) :=
  let front := s.takeWhile fun c => !stops.contains c && c ≠ '\n'
  match s.drop front.length with
  | c :: rest => if stops.contains c then some (front, c :: rest) else none
  | [] => none

def copyArgs? : Text.Recogniser CopyArgs := fun s => do
  let rest ← Text.after? "COPY_ARGS".toList s
  match rest.dropWhile Text.isWordChar with
  | '(' :: rest =>
    let (name, rest) ← upTo? [','] rest
    let (index, rest) ← upTo? [',', ')'] (rest.drop 1)
    let (first, rest) ←
      match rest with
      | ',' :: rest => (upTo? [')'] rest).map fun (first, rest) => (some first, rest)
      | rest => some (none, rest)
    let size := s.length - rest.length + 1
    some ({ text := s.take size, name, index, first }, size)
  | _ => none

def shifted (counter op : String) (n : Int) : String :=
  if n = 0 then counter else counter ++ " " ++ op ++ " " ++ toString n

def CopyArgs.expand (call : CopyArgs) : Except Error String := do
  let text := String.ofList call.text
  let name := String.ofList (Text.trim call.name)
  let index ← (Number.readInt 10 (String.ofList (Text.trim call.index))).mapError Error.number
  match call.first with
  | some first =>
    let first := String.ofList (Text.trim first)
    return "\n\t\t/* " ++ text ++ " */\n\t\tvar $n = arguments.length\n\t\tvar " ++ name ++
      " = new Array(" ++ shifted "$n" "+" (1 - index) ++ ")\n\t\t" ++ name ++ "[0] = " ++ first ++
      "\n\t\tfor(var $i = " ++ toString index ++ "; $i < $n; ++$i) \x7b\n\t\t\t" ++ name ++ "[" ++
      shifted "$i" "+" (1 - index) ++ "] = arguments[$i]\n\t\t\x7d\n"
  | none =>
    return "\n\t\t/* " ++ text ++ " */\n\t\tvar $n = arguments.length\n\t\tvar " ++ name ++
      " = new Array(" ++ shifted "$n" "-" index ++ ")\n\t\tvar $d = 0, $s = " ++ toString index ++
      ";\n\t\twhile($s < $n) \x7b\n\t\t\t" ++ name ++ "[$d++] = arguments[$s++]\n\t\t\x7d\n"

def expandPieces : List (Char ⊕ CopyArgs) → Except Error (List (List Char))
  | [] => .ok []
  | .inl c :: pieces => do return [c] :: (← expandPieces pieces)
  | .inr call :: pieces => do return (← call.expand).toList :: (← expandPieces pieces)

def replaceArgs (text : String) : Except Error String := do
  return String.ofList (← expandPieces (Text.pieces copyArgs? text.toList)).flatten

end QmlScript.Script
