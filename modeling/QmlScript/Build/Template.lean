import QmlScript.Compile.Error
import QmlScript.Text.Glob

/-!
# Templates

In a template a name between double braces is replaced by the property of that name, or by nothing if
there is none. What stands between braces with percent signs is removed, if it is on one line.
-/

namespace QmlScript.Build

abbrev Context := List (String × Json)

def isNameChar (c : Char) : Bool := Text.isWordChar c || c = '.'

def placeholder? : Text.Recogniser String := fun s => do
  let inside ← Text.after? ['\x7b', '\x7b'] s
  let (name, rest) := (Text.dropBlank inside).span isNameChar
  let rest ← Text.after? ['\x7d', '\x7d'] (Text.dropBlank rest)
  if name.isEmpty then none else some (String.ofList name, s.length - rest.length)

def behindBlock? : List Char → Option (List Char)
  | [] => none
  | '%' :: '\x7d' :: s => some s
  | c :: s => if c = '\n' then none else behindBlock? s

def block? : Text.Recogniser (List Char) := fun s => do
  let rest ← behindBlock? (← Text.after? ['\x7b', '%'] s)
  some ([], s.length - rest.length)

/-- The number of parts that pieces make: neighbouring characters are one, a missing value is none. -/
def countParts (afterChar : Bool) : List (Char ⊕ Json) → Nat
  | [] => 0
  | .inl _ :: pieces => (if afterChar then 0 else 1) + countParts true pieces
  | .inr .null :: pieces => countParts false pieces
  | .inr _ :: pieces => 1 + countParts false pieces

/-- The text of pieces, whose values have to be texts. The first argument is what comes before, reversed. -/
def joinPieces (before : List (Char ⊕ Json)) : List (Char ⊕ Json) → Except KindError (List Char)
  | [] => .ok []
  | .inl c :: pieces => do return c :: (← joinPieces (.inl c :: before) pieces)
  | .inr (.str s) :: pieces => do
    return s.toList ++ (← joinPieces (.inr (.str s) :: before) pieces)
  | .inr .null :: pieces => joinPieces (.inr .null :: before) pieces
  | .inr other :: _ => .error (.notJoinable (countParts false before.reverse) other.kind)

def fillIn (context : Context) (text : String) : Except KindError String := do
  let pieces := (Text.pieces placeholder? text.toList).map fun
    | .inl c => Sum.inl c
    | .inr name => Sum.inr ((Json.field? name context).getD (.str ""))
  let filled ← joinPieces [] pieces
  return String.ofList (Text.substitute block? filled)

/-- Whether a file is a template, once for each pattern that it fits. -/
def templateUses (patterns : List Json) (name : String) : Except KindError Nat :=
  patterns.foldlM (fun n pattern =>
    match pattern with
    | .str pattern => .ok (if Text.globFits pattern.toList name.toList then n + 1 else n)
    | other => .error (.notName other.kind)) 0

end QmlScript.Build
