import QmlScript.Number.Double
import QmlScript.Text.Quoted

/-!
# Reading numbers

Numbers as users write them: blanks around them are dropped, digits of every script count, and a single
underscore may stand between two digits. Floating point numbers may also be one of the words for infinity
and for no number.
-/

namespace QmlScript.Number

def isMargin (c : Char) : Bool := Text.isPlainBlank c || Text.isWideBlank c

/-- The text of a number without margins, its digits written in ASCII. -/
def normalise (s : List Char) : List Char :=
  Text.trimBy isMargin <| s.map fun c =>
    match Text.digitValue? c with
    | some n => Char.ofNat ('0'.toNat + n)
    | none => c

/-- Drop underscores between two digits; `none` if there is another. -/
def dropUnderscores? (isDigit : Char → Bool) : (before : Option Char) → List Char → Option (List Char)
  | _, [] => some []
  | before, '_' :: s =>
    match before, s with
    | some b, d :: s' =>
      if isDigit b && isDigit d then (dropUnderscores? isDigit (some d) s').map (d :: ·) else none
    | _, _ => none
  | _, c :: s => (dropUnderscores? isDigit (some c) s).map (c :: ·)

def readSign : List Char → Bool × List Char
  | '-' :: s => (true, s)
  | '+' :: s => (false, s)
  | s => (false, s)

def readDigits? (base : Nat) (s : List Char) : Option Nat :=
  if s.isEmpty then none
  else s.foldl (fun acc c => do
    let n ← acc
    let d ← Text.hexValue? c
    if d < base then some (n * base + d) else none) (some 0)

/-- The digits behind a mark of the base, `0x` for sixteen. -/
def dropBaseMark (base : Nat) (s : List Char) : List Char :=
  match base, s with
  | 16, '0' :: x :: s' =>
    if x = 'x' || x = 'X' then (match s' with | '_' :: s'' => s'' | _ => s') else s
  | _, _ => s

def readInt? (base : Nat) (s : List Char) : Option Int := do
  let (negative, s) := readSign (normalise s)
  let s ← dropUnderscores? (fun c => (Text.hexValue? c).any (· < base)) none (dropBaseMark base s)
  let n ← readDigits? base s
  return if negative then -(n : Int) else n

def readExponent? : List Char → Option Int
  | [] => some 0
  | e :: s =>
    if e = 'e' || e = 'E' then do
      let (negative, s) := readSign s
      let n ← readDigits? 10 s
      return if negative then -(n : Int) else n
    else none

def readFraction? (negative : Bool) (s : List Char) : Option Double := do
  let (whole, s) := s.span Char.isDigit
  let (part, s) :=
    match s with
    | '.' :: s => s.span Char.isDigit
    | s => ([], s)
  let digits ← readDigits? 10 (whole ++ part)
  let exponent ← readExponent? s
  return Double.ofDecimal negative digits (exponent - part.length)

def readDouble? (s : List Char) : Option Double := do
  let s ← dropUnderscores? Char.isDigit none (normalise s)
  let (negative, s) := readSign s
  let word := String.ofList (s.map Char.toLower)
  if word = "inf" || word = "infinity" then return .infinite negative
  else if word = "nan" then return .notANumber
  else readFraction? negative s

inductive Fault where
  | notWhole (base : Nat) (text : String)
  | notDouble (text : String)
  | tooLong (digits : Nat)
  /-- More decimal digits than the text of a whole number may have. -/
  | unwritable
  deriving DecidableEq, Repr

def mostDigits : Nat := 4300

/-- How much of a text the wording of a fault shows, its quotes included. -/
def shownSize : Nat := 200

def Fault.message : Fault → String
  | .notWhole base text =>
    s!"invalid literal for int() with base {base}: " ++
      String.ofList ((quotedText text).toList.take shownSize)
  | .notDouble text => "could not convert string to float: " ++ quotedText text
  | .tooLong digits =>
    s!"Exceeds the limit ({mostDigits} digits) for integer string conversion: " ++
      s!"value has {digits} digits; use sys.set_int_max_str_digits() to increase the limit"
  | .unwritable =>
    s!"Exceeds the limit ({mostDigits} digits) for integer string conversion; " ++
      "use sys.set_int_max_str_digits() to increase the limit"

/-- The number of digits at the head of a text; `none` if an underscore is not between two digits. -/
def countDigits? (s : List Char) : Option Nat :=
  let (_, s) := readSign (normalise s)
  let run := s.takeWhile fun c => c.isDigit || c = '_'
  (dropUnderscores? Char.isDigit none run).map List.length

/-- The whole number of a text, or why it is none. Too many digits are a fault whatever follows them. -/
def readInt (base : Nat) (text : String) : Except Fault Int :=
  match if base = 10 then (countDigits? text.toList).filter (mostDigits < ·) else none with
  | some digits => .error (.tooLong digits)
  | none =>
    match readInt? base text.toList with
    | some n => .ok n
    | none => .error (.notWhole base text)

def readDouble (text : String) : Except Fault Double :=
  match readDouble? text.toList with
  | some x => .ok x
  | none => .error (.notDouble text)

end QmlScript.Number
