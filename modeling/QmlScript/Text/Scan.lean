/-!
# Scanning texts

Texts are lists of characters. A *recogniser* looks at the text ahead and may say what it found and how many
characters that takes. `findAll` collects what it finds and `substitute` puts something else in its place;
finds never overlap.
-/

namespace QmlScript.Text

def unifyBreaks : List Char → List Char
  | [] => []
  | '\r' :: '\n' :: s => '\n' :: unifyBreaks s
  | c :: s => (if c = '\r' then '\n' else c) :: unifyBreaks s

def isBreak (c : Char) : Bool :=
  (10 ≤ c.toNat && c.toNat ≤ 13) || (0x1c ≤ c.toNat && c.toNat ≤ 0x1e) || c.toNat == 0x85 ||
  c.toNat == 0x2028 || c.toNat == 0x2029

/-- The lines of a text, given what stands on the current one. A break at the end starts no line. -/
def linesFrom (line : List Char) : List Char → List (List Char)
  | [] => if line.isEmpty then [] else [line.reverse]
  | '\r' :: '\n' :: s => line.reverse :: linesFrom [] s
  | c :: s => if isBreak c then line.reverse :: linesFrom [] s else linesFrom (c :: line) s

def lines (s : List Char) : List (List Char) := linesFrom [] s

/-- A recogniser: what stands at the head of a text, with the number of characters it takes. -/
abbrev Recogniser (α : Type) := List Char → Option (α × Nat)

def after? : (start s : List Char) → Option (List Char)
  | [], s => some s
  | _ :: _, [] => none
  | c :: start, d :: s => if c = d then after? start s else none

def startsWith (start s : List Char) : Bool := (after? start s).isSome

def endsWith (tail s : List Char) : Bool := startsWith tail.reverse s.reverse

/-- Everything that `find` recognises in a text, behind `skip` characters of the find before. -/
def findAllFrom {α : Type} (find : Recogniser α) : Nat → List Char → List α
  | _, [] => []
  | skip + 1, _ :: s => findAllFrom find skip s
  | 0, c :: s =>
    match find (c :: s) with
    | some (found, size) => found :: findAllFrom find (size - 1) s
    | none => findAllFrom find 0 s

def findAll {α : Type} (find : Recogniser α) (s : List Char) : List α := findAllFrom find 0 s

def substituteFrom (find : Recogniser (List Char)) : Nat → List Char → List Char
  | _, [] => []
  | skip + 1, _ :: s => substituteFrom find skip s
  | 0, c :: s =>
    match find (c :: s) with
    | some (put, size) => put ++ substituteFrom find (size - 1) s
    | none => c :: substituteFrom find 0 s

def substitute (find : Recogniser (List Char)) (s : List Char) : List Char := substituteFrom find 0 s

def piecesFrom {α : Type} (find : Recogniser α) : Nat → List Char → List (Char ⊕ α)
  | _, [] => []
  | skip + 1, _ :: s => piecesFrom find skip s
  | 0, c :: s =>
    match find (c :: s) with
    | some (found, size) => .inr found :: piecesFrom find (size - 1) s
    | none => .inl c :: piecesFrom find 0 s

def pieces {α : Type} (find : Recogniser α) (s : List Char) : List (Char ⊕ α) := piecesFrom find 0 s

def literal (word : List Char) : Recogniser Unit := fun s =>
  if startsWith word s then some ((), word.length) else none

def replaceAll (old new : List Char) (s : List Char) : List Char :=
  substitute (fun s => if startsWith old s then some (new, old.length) else none) s

def count (word s : List Char) : Nat := (findAll (literal word) s).length

def contains (word : List Char) : List Char → Bool
  | [] => word.isEmpty
  | c :: s => startsWith word (c :: s) || contains word s

def splitOn (sep : Char) : List Char → List (List Char)
  | [] => [[]]
  | c :: s =>
    if c = sep then [] :: splitOn sep s
    else
      match splitOn sep s with
      | [] => [[c]]
      | part :: parts => (c :: part) :: parts

/-- `s` cut at the first `sep`, which belongs to neither part. -/
def cutFirst? (sep : Char) : List Char → Option (List Char × List Char)
  | [] => none
  | c :: s =>
    if c = sep then some ([], s) else (cutFirst? sep s).map fun (front, back) => (c :: front, back)

def cutLast? (sep : Char) (s : List Char) : Option (List Char × List Char) :=
  (cutFirst? sep s.reverse).map fun (back, front) => (front.reverse, back.reverse)

def cutAt? (word : List Char) : List Char → Option (List Char × List Char)
  | [] => if word.isEmpty then some ([], []) else none
  | c :: s =>
    match after? word (c :: s) with
    | some rest => some ([], rest)
    | none => (cutAt? word s).map fun (front, back) => (c :: front, back)

def join (sep : List Char) : List (List Char) → List Char
  | [] => []
  | [part] => part
  | part :: parts => part ++ sep ++ join sep parts

end QmlScript.Text

namespace QmlScript

def splitText (sep : Char) (s : String) : List String := (Text.splitOn sep s.toList).map String.ofList

def joinText (sep : String) (parts : List String) : String := sep.intercalate parts

def replaceText (old new s : String) : String :=
  String.ofList (Text.replaceAll old.toList new.toList s.toList)

def cutLastText? (sep : Char) (s : String) : Option (String × String) :=
  (Text.cutLast? sep s.toList).map fun (front, back) => (String.ofList front, String.ofList back)

def cutFirstText? (sep : Char) (s : String) : Option (String × String) :=
  (Text.cutFirst? sep s.toList).map fun (front, back) => (String.ofList front, String.ofList back)

def startsWithText (start s : String) : Bool := Text.startsWith start.toList s.toList

def endsWithText (tail s : String) : Bool := Text.endsWith tail.toList s.toList

def containsText (word s : String) : Bool := Text.contains word.toList s.toList

end QmlScript
