/-!
# Patterns for names

In a pattern a star stands for any characters, a question mark for one, and brackets around characters
and ranges for one of these, or for one other character if an exclamation mark comes first.
-/

namespace QmlScript.Text

inductive GlobPart where
  | star
  | any
  | char (c : Char)
  | set (negated : Bool) (ranges : List (Char × Char))
  deriving DecidableEq, Repr

/-- The ranges between brackets; a single character is a range of its own. -/
def globRanges : List Char → List (Char × Char)
  | lo :: '-' :: hi :: s => (lo, hi) :: globRanges s
  | c :: s => (c, c) :: globRanges s
  | [] => []

/-- The characters up to the closing bracket of a set, at least one, and what follows. -/
def bracketed? (s : List Char) : Option (List Char × List Char) :=
  let (first, s) :=
    match s with
    | ']' :: s => ([']'], s)
    | s => ([], s)
  match s.span (· ≠ ']') with
  | (inside, _ :: rest) => some (first ++ inside, rest)
  | _ => none

def globSet? (s : List Char) : Option (GlobPart × List Char) :=
  let (negated, s) :=
    match s with
    | '!' :: s => (true, s)
    | s => (false, s)
  (bracketed? s).map fun (inside, rest) => (.set negated (globRanges inside), rest)

def globParts : (bound : Nat) → List Char → List GlobPart
  | 0, _ => []
  | _ + 1, [] => []
  | bound + 1, c :: s =>
    if c = '*' then .star :: globParts bound s
    else if c = '?' then .any :: globParts bound s
    else if c = '[' then
      match globSet? s with
      | some (part, rest) => part :: globParts bound rest
      | none => .char '[' :: globParts bound s
    else .char c :: globParts bound s

def anyEnd (p : List Char → Bool) : List Char → Bool
  | [] => p []
  | c :: s => p (c :: s) || anyEnd p s

def GlobPart.fits : GlobPart → Char → Bool
  | .star, _ => true
  | .any, _ => true
  | .char d, c => c = d
  | .set negated ranges, c => (ranges.any fun (lo, hi) => lo ≤ c && c ≤ hi) != negated

def partsFit : List GlobPart → List Char → Bool
  | [], s => s.isEmpty
  | .star :: parts, s => anyEnd (partsFit parts) s
  | _ :: _, [] => false
  | part :: parts, c :: s => part.fits c && partsFit parts s

def globFits (pattern s : List Char) : Bool := partsFit (globParts (pattern.length + 1) pattern) s

end QmlScript.Text
