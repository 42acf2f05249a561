import QmlScript.Markup.DocumentType
import QmlScript.Markup.Head

/-!
# Reading documents

A document is read one part at a time. A name that stands for a text is read as if the text stood in its
place, except that every element which starts in such a text has to end in it. Prefixes of names stand for
addresses that `xmlns` gives.
-/

namespace QmlScript.Markup

/-- The addresses of prefixes, inner ones first; the empty one is for elements without. -/
abbrev Vocabularies := List (String × String)

def coreAddress : String := "http://www.w3.org/XML/1998/namespace"

/-- The address of attributes that give addresses; no prefix may have it. -/
def vocabularyAddress : String := "http://www.w3.org/2000/xmlns/"

def knownVocabularies : Vocabularies := [("xml", coreAddress)]

def vocabularyPrefix? (name : String) : Option String :=
  if name = "xmlns" then some ""
  else (Text.after? "xmlns:".toList name.toList).map String.ofList

/-- Whether a prefix may get an address; only the empty one may lose its own. -/
def mayName (front address : String) : Bool :=
  front ≠ "xmlns" && (front = "xml") = (address = coreAddress) && address ≠ vocabularyAddress &&
    (front = "" || address ≠ "") && !address.toList.contains '\x7d'

def addVocabularies (known : Vocabularies) (attributes : List (String × String)) :
    Option Vocabularies :=
  attributes.foldlM (fun known (name, value) =>
    match vocabularyPrefix? name with
    | some front => if mayName front value then some ((front, value) :: known) else none
    | none => some known) known

def qualify? (known : Vocabularies) (isElement : Bool) (name : String) : Option String :=
  let inVocabulary (address name : String) : String := "\x7b" ++ address ++ "\x7d" ++ name
  match cutFirstText? ':' name with
  | some (front, back) => (known.lookup front).map fun address => inVocabulary address back
  | none =>
    match if isElement then known.lookup "" else none with
    | none => some name
    | some address => some (if address = "" then name else inVocabulary address name)

structure Unfinished where
  tag : String
  name : String
  attributes : List (String × String)
  vocabularies : Vocabularies
  text : List Char := []
  children : List Element := []

namespace Unfinished

/-- Put text into an element; behind the first child it is dropped. -/
def addText (u : Unfinished) (chars : List Char) : Unfinished :=
  if u.children.isEmpty then { u with text := chars.reverseAux u.text } else u

def addChild (u : Unfinished) (child : Element) : Unfinished :=
  { u with children := child :: u.children }

def finish (u : Unfinished) : Element :=
  { name := u.name, attributes := u.attributes,
    text := if u.text.isEmpty then none else some (String.ofList u.text.reverse),
    children := u.children.reverse }

/-- An element at its start. No attribute is given twice, also if two prefixes have one address. -/
def start? (known : Vocabularies) (tag : String) (attributes : List (String × String)) :
    Option Unfinished := do
  let areDistinct (names : List String) : Bool := names.eraseDups.length = names.length
  let vocabularies ← addVocabularies known attributes
  let kept := attributes.filter fun (name, _) => (vocabularyPrefix? name).isNone
  let qualified ← kept.mapM fun (name, value) => return (← qualify? vocabularies false name, value)
  let name ← qualify? vocabularies true tag
  if areDistinct (attributes.map (·.1)) && areDistinct (qualified.map (·.1)) then
    some { tag, name, attributes := qualified, vocabularies }
  else none

end Unfinished

structure StartTag where
  name : String
  attributes : List (String × List Char)
  isClosed : Bool

/-- Less than `bound` attributes up to the end of a tag, and whether the tag ends the element, too. -/
def attributes? : (bound : Nat) → List Char →
    Option (List (String × List Char) × Bool × List Char)
  | 0, _ => none
  | bound + 1, s =>
    match skipGap s with
    | '>' :: rest => some ([], false, rest)
    | '/' :: '>' :: rest => some ([], true, rest)
    | inside => do
      if inside.length = s.length then none
      let (name, rest) ← qualifiedName? inside
      match skipGap rest with
      | '=' :: rest =>
        match skipGap rest with
        | quote :: rest =>
          if quote = '"' || quote = '\'' then
            let (value, rest) ← Text.cutFirst? quote rest
            let (others, isClosed, rest) ← attributes? bound rest
            some ((name, value) :: others, isClosed, rest)
          else none
        | [] => none
      | _ => none

def startTag? (s : List Char) : Option (StartTag × List Char) := do
  let (name, rest) ← qualifiedName? s
  let (attributes, isClosed, rest) ← attributes? (rest.length + 1) rest
  return ({ name, attributes, isClosed }, rest)

def endTag? (s : List Char) : Option (String × List Char) := do
  let (name, rest) ← qualifiedName? s
  match skipGap rest with
  | '>' :: rest => some (name, rest)
  | _ => none

/-- The attributes of a tag with their values, those only declared last, and what is left of the allowance. -/
def allAttributes? (d : DocumentType) (opened : List String) (allowance : Nat) (tag : StartTag) :
    Option (List (String × String) × Nat) := do
  let (written, allowance) ← tag.attributes.foldlM (fun (written, allowance) (name, text) => do
    let isPlain := ((d.rule? tag.name name).map (·.isPlain)).getD true
    let (value, allowance) ← value? d isPlain opened allowance text
    return (written ++ [(name, value)], allowance)) (([] : List (String × String)), allowance)
  let declared := d.rules.filterMap fun r =>
    if r.element = tag.name && (written.lookup r.name).isNone then r.value.map (r.name, ·) else none
  return (written ++ declared, allowance)

structure Passage extends Source where
  depth : Nat

structure Reading where
  /-- The texts that are being read, the innermost first, the document last. -/
  passages : List Passage
  opened : List Unfinished := []
  allowance : Nat

inductive Progress where
  | more (r : Reading)
  | done (root : Element) (rest : List Char)

namespace Reading

def goOn (r : Reading) (rest : List Char) : Progress :=
  match r.passages with
  | [] => .more r
  | p :: outer => .more { r with passages := { p with rest } :: outer }

def addText (r : Reading) (chars rest : List Char) : Option Progress :=
  match r.opened with
  | [] => none
  | u :: outer => some ({ r with opened := u.addText chars :: outer }.goOn rest)

def finish (r : Reading) (rest : List Char) : Option Progress :=
  match r.opened with
  | [] => none
  | [u] => some (.done u.finish rest)
  | u :: outer :: others =>
    some ({ r with opened := outer.addChild u.finish :: others }.goOn rest)

def start (d : DocumentType) (r : Reading) (tag : StartTag) (rest : List Char) : Option Progress := do
  let (attributes, allowance) ←
    allAttributes? d (r.passages.filterMap (·.name)) r.allowance tag
  let known := (r.opened.head?.map (·.vocabularies)).getD knownVocabularies
  let u ← Unfinished.start? known tag.name attributes
  let r := { r with opened := u :: r.opened, allowance }
  if tag.isClosed then r.finish rest else some (r.goOn rest)

def enter (d : DocumentType) (r : Reading) (name : String) (rest : List Char) : Option Progress :=
  match knownChar? name, d.entities.lookup name with
  | some c, _ => r.addText [c] rest
  | none, some (.text chars) =>
    let size := DocumentType.byteSize chars
    let isOpen := r.passages.any fun p => p.name = some name
    if isOpen || r.allowance < size then none
    else
      match r.goOn rest with
      | .more r =>
        let p := { name := some name, rest := chars, depth := r.opened.length }
        some (.more { r with passages := p :: r.passages, allowance := r.allowance - size })
      | done => some done
  | none, _ => none

def step (d : DocumentType) (r : Reading) : Option Progress :=
  match r.passages with
  | [] => none
  | p :: outer =>
    match p.rest with
    | [] =>
      if p.name.isSome && r.opened.length = p.depth then some (.more { r with passages := outer })
      else none
    | '<' :: '/' :: s => do
      let (name, rest) ← endTag? s
      if r.opened.length ≠ p.depth && r.opened.head?.any (·.tag = name) then r.finish rest else none
    | '<' :: '?' :: s => do return r.goOn (← behindInstruction? s)
    | '<' :: '!' :: '-' :: '-' :: s => do return r.goOn (← behindComment? s)
    | '<' :: '!' :: s => do
      let (chars, rest) ← Text.cutAt? "]]>".toList (← Text.after? "[CDATA[".toList s)
      r.addText chars rest
    | '<' :: s => do
      let (tag, rest) ← startTag? s
      r.start d tag rest
    | '&' :: s => do
      match ← reference? s with
      | (.char c, rest) => r.addText [c] rest
      | (.named name, rest) => r.enter d name rest
    | s =>
      let (chars, rest) := s.span fun c => c ≠ '<' && c ≠ '&'
      if Text.contains "]]>".toList chars then none else r.addText chars rest

def run (d : DocumentType) : (bound : Nat) → Reading → Option (Element × List Char)
  | 0, _ => none
  | bound + 1, r =>
    match r.step d with
    | none => none
    | some (.more r) => run d bound r
    | some (.done root rest) => some (root, rest)

end Reading

/-- The outermost element and what is behind it. Each part takes a character or ends a named text, which bounds their
number. -/
def root? (d : DocumentType) (s : List Char) : Option (Element × List Char) :=
  let bound := 2 * (s.length + d.allowance) + 2
  if s.head? = some '<' then
    Reading.run d bound
      { passages := [{ name := none, rest := s, depth := 0 }], allowance := d.allowance }
  else none

/-- The outermost element of a document behind its head. -/
def document? (standsAlone : Bool) (s : List Char) : Option Element := do
  let (d, s) ← behindProlog? standsAlone (DocumentType.byteSize s) s
  let (root, rest) ← root? d s
  if (← behindRemarks? (rest.length + 1) rest).isEmpty then some root else none

def read (text : String) : Except ReadError Element := do
  let (head, s) ← decode text.toList
  match document? head.standsAlone s with
  | some root => return root
  | none => throw .malformed

end QmlScript.Markup
