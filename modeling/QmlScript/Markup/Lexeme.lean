import QmlScript.Markup.Element
import QmlScript.Text.CharClass

/-!
# The smallest parts of documents

Blanks, names, references, comments and instructions look the same everywhere in a document. Each is
read at the head of a text, and what is read comes with the text behind it.
-/

namespace QmlScript.Markup

def nameStartRuns : List Nat := Text.runsOf [
  "HkxbBfbCgclcibCbbCqjBkdceBeCeDlshHobbdbbbubBsbhdbbbbbbbbsnmbCobmbBkoCbccccdBcciccCdBmcbhBmCvBbfdBuBagkBmCtcfbpbeb",
  "bpcUwCbdbBakBjicccwbhbbdeBicbdoctgeccwbhbcbcbcBfebbtdqhbbbdbwbhbcbfdbBibBkicccwbhbccedbBecbdBjgddbedcbbbcdcdddibd",
  "CxibdbxbkbfBmcBjibdbxbkbfBkbbcBjibdbxbqBmcGdBubbbcmgChcbbccbbcbgebhbdbbbbccbcbbbcjbcfEtibBhLyBmkBnjbbcbdbbbcbfBpb",
  "bbbblbbbbbdcdbfdbbbbbbbbdcdcbbBobjbcbcchcbbbhBobebibEOkGaeDmgwcgcBmcgcibbbbbbbBfcCbbhbbddbhdecgenfdbhLlbdccbDdd",
  "FMybzjxDgmDmkBoKXvBEXyERqQNs"]

def nameRestRuns : List Nat := Text.runsOf [
  "HbbUqcBuCsBacBlbJreKgrbxbdbbbcbbEtbkinkgbDxpccbeckTzdCebbqdencckrdCebbhcccdjbkccksbCfbbfeccdympdCebbibdbdykrdCebb",
  "gdccdicokscCgfddbejbpjrdCghbdbehcpkscCghbdbehcpkscCggcdbejbokHlbchljbkDjbcgbcjbbgckCkcgklbbbbbecBxubgegbbbvdhbb",
  "GMgnebFTbbBkgbfDvcccDpd"]

def isNameStart (c : Char) : Bool :=
  if c.toNat < 128 then c.isAlpha || c = '_' else Text.inRuns nameStartRuns c.toNat

def isNameChar (c : Char) : Bool :=
  isNameStart c ||
    if c.toNat < 128 then c.isDigit || c = '-' || c = '.' else Text.inRuns nameRestRuns c.toNat

def isGap (c : Char) : Bool := c = ' ' || c = '\t' || c = '\n' || c = '\r'

def skipGap (s : List Char) : List Char := s.dropWhile isGap

def name? : List Char → Option (String × List Char)
  | c :: s =>
    if isNameStart c then
      let (front, rest) := s.span isNameChar
      some (String.ofList (c :: front), rest)
    else none
  | [] => none

def qualifiedName? (s : List Char) : Option (String × List Char) :=
  match name? s with
  | some (front, ':' :: rest) => (name? rest).map fun (back, rest) => (front ++ ":" ++ back, rest)
  | other => other

inductive Reference where
  | char (c : Char)
  | named (name : String)

/-- The character of a number; only legal characters can be given this way. -/
def numbered? (n : Nat) : Option Char :=
  if n.isValidChar && isLegal (Char.ofNat n) then some (Char.ofNat n) else none

def digits? (base : Nat) : List Char → Option Nat
  | [] => none
  | s => s.foldlM (fun n c => do
      let d ← if c.toNat < 128 then Text.hexValue? c else none
      if d < base then some (n * base + d) else none) 0

def reference? : List Char → Option (Reference × List Char)
  | '#' :: s => do
    let (inside, rest) ← Text.cutFirst? ';' s
    let number ←
      match inside with
      | 'x' :: digits => digits? 16 digits
      | digits => digits? 10 digits
    return (.char (← numbered? number), rest)
  | s => do
    match ← name? s with
    | (name, ';' :: rest) => some (.named name, rest)
    | _ => none

def knownChar? (name : String) : Option Char :=
  [("amp", '&'), ("lt", '<'), ("gt", '>'), ("quot", '"'), ("apos", '\'')].lookup name

/-- The text behind a comment without its opening; no two hyphens are inside. -/
def behindComment? (s : List Char) : Option (List Char) :=
  match Text.cutAt? "--".toList s with
  | some (_, '>' :: rest) => some rest
  | _ => none

/-- The text behind an instruction. None is named like the head of a document. -/
def behindInstruction? (s : List Char) : Option (List Char) := do
  let (name, rest) ← name? s
  let isOpen := rest.head?.any isGap || Text.startsWith "?>".toList rest
  if isOpen && name.toLower ≠ "xml" then (Text.cutAt? "?>".toList rest).map (·.2) else none

def behindRemarks? : (bound : Nat) → List Char → Option (List Char)
  | 0, _ => none
  | bound + 1, s =>
    match skipGap s with
    | '<' :: '?' :: s => do behindRemarks? bound (← behindInstruction? s)
    | '<' :: '!' :: '-' :: '-' :: s => do behindRemarks? bound (← behindComment? s)
    | s => some s

/-! ## Tokens of declarations: most end only in front of certain characters -/

inductive Token where
  | declaration (keyword : String)
  | name (name : String)
  | qualified (name : String)
  | word
  | counted
  | keyword (name : String)
  | quoted (text : List Char)
  | percent
  | parameter
  | openList
  | closeList
  | openGroup
  /-- A closing parenthesis, maybe with a mark how often the group may stand. -/
  | closeGroup (mark : Option Char)
  | bar
  | comma
  | close

namespace Token

/-- The token, if a blank or one of the given characters follows. -/
def before? (token : Token) (ends : List Char) (rest : List Char) : Option (Token × List Char) :=
  if rest.head?.any fun c => isGap c || ends.contains c then some (token, rest) else none

def quoted? (quote : Char) (s : List Char) : Option (Token × List Char) := do
  let (text, rest) ← Text.cutFirst? quote s
  before? (.quoted text) ['>', '%', '['] rest

def declaration? (s : List Char) : Option (Token × List Char) :=
  let (letters, rest) := s.span fun c => c.isAlpha || c = '_'
  let isOpen :=
    match rest with
    | '%' :: c :: _ => !isGap c && c ≠ '%'
    | c :: _ => isGap c
    | [] => false
  if isOpen && !letters.isEmpty then some (.declaration (String.ofList letters), rest) else none

def percent? (s : List Char) : Option (Token × List Char) :=
  match s with
  | [] => none
  | c :: _ =>
    if isGap c || c = '%' then some (.percent, s)
    else
      match name? s with
      | some (_, ';' :: rest) => some (.parameter, rest)
      | _ => none

def ofWord (word : List Char) : Token :=
  if word.head?.any isNameStart then
    match Text.splitOn ':' word with
    | [_] => .name (String.ofList word)
    | [_, _ :: _] => .qualified (String.ofList word)
    | _ => .word
  else .word

def word? (s : List Char) : Option (Token × List Char) :=
  let (front, rest) := s.span fun c => isNameChar c || c = ':'
  let token := ofWord front
  if front.isEmpty then none
  else
    match token, rest with
    | .word, _ => before? token ['>', ')', ',', '|', '[', '%'] rest
    | _, c :: rest =>
      if c = '+' || c = '*' || c = '?' then some (.counted, rest)
      else before? token ['>', ')', ',', '|', '[', '%'] (c :: rest)
    | _, [] => none

def next? (s : List Char) : Option (Token × List Char) :=
  match skipGap s with
  | '"' :: s => quoted? '"' s
  | '\'' :: s => quoted? '\'' s
  | '<' :: '!' :: s => declaration? s
  | '%' :: s => percent? s
  | '#' :: s => do
    let (found, rest) ← name? s
    before? (.keyword found) [')', '>', '%', '|'] rest
  | '[' :: s => some (.openList, s)
  | ']' :: s => if Text.startsWith "]>".toList s then none else some (.closeList, s)
  | '(' :: s => some (.openGroup, s)
  | ')' :: c :: s =>
    if c = '*' || c = '?' || c = '+' then some (.closeGroup (some c), s)
    else before? (.closeGroup none) ['>', ',', '|', ')'] (c :: s)
  | '|' :: s => some (.bar, s)
  | ',' :: s => some (.comma, s)
  | '>' :: s => some (.close, s)
  | s => word? s

end Token

end QmlScript.Markup
