import QmlScript.Markup.Lexeme

/-!
# What a document declares

The document type gives names to texts and values to attributes, and whatever is declared first counts.
Declarations that stand elsewhere are never read, and once a document refers to them its own are passed over,
too, unless it stands alone.
-/

namespace QmlScript.Markup

inductive Entity where
  /-- A text with references by number put in, and those by name left. -/
  | text (chars : List Char)
  | outside

structure AttributeRule where
  element : String
  name : String
  /-- Whether any text may be the value, and not only words with single spaces. -/
  isPlain : Bool
  value : Option String

structure DocumentType where
  entities : List (String × Entity) := []
  rules : List AttributeRule := []
  standsAlone : Bool := false
  isIncomplete : Bool := false
  isFollowed : Bool := true
  /-- How much text names may still stand for, in bytes. -/
  allowance : Nat := 0

namespace DocumentType

/-- The allowance of a document of a size: up to eight mebibytes with it, or a hundred times the document. -/
def allowanceOf (size : Nat) : Nat := max (8388607 - size) (99 * size)

def byteSize (s : List Char) : Nat := s.foldl (fun n c => n + c.utf8Size) 0

def rule? (d : DocumentType) (element name : String) : Option AttributeRule :=
  d.rules.find? fun r => r.element = element && r.name = name

def addEntity (d : DocumentType) (name : String) (entity : Entity) : DocumentType :=
  if (knownChar? name).isSome || (d.entities.lookup name).isSome then d
  else { d with entities := d.entities ++ [(name, entity)] }

def addRule (d : DocumentType) (r : AttributeRule) : DocumentType :=
  if (d.rule? r.element r.name).isSome then d else { d with rules := d.rules ++ [r] }

def pointElsewhere (d : DocumentType) : DocumentType :=
  { d with isIncomplete := true, isFollowed := d.standsAlone }

end DocumentType

/-- A text that is being read: what is left, and the name it stands for. -/
structure Source where
  name : Option String
  rest : List Char

/-- A reversed value with one more space; between words one is enough. -/
def addSpace (isPlain : Bool) (value : List Char) : List Char :=
  if !isPlain && (value.isEmpty || value.head? = some ' ') then value else ' ' :: value

/-- The value of an attribute, reversed, and what is left of the allowance, from `sources`, the innermost first. No
name in `opened` stands for a text with itself inside. -/
def valueFrom (d : DocumentType) (isPlain : Bool) (opened : List String) :
    (bound allowance : Nat) → (sources : List Source) → (value : List Char) →
    Option (List Char × Nat)
  | 0, _, _, _ => none
  | _ + 1, allowance, [], value => some (value, allowance)
  | bound + 1, allowance, { name, rest } :: sources, value =>
    let goOn (allowance : Nat) (rest value : List Char) : Option (List Char × Nat) :=
      valueFrom d isPlain opened bound allowance ({ name, rest } :: sources) value
    match rest with
    | [] => valueFrom d isPlain opened bound allowance sources value
    | '<' :: _ => none
    | '&' :: s =>
      match reference? s with
      | none => none
      | some (.char c, rest) =>
        goOn allowance rest (if c = ' ' then addSpace isPlain value else c :: value)
      | some (.named inner, rest) =>
        match knownChar? inner, d.entities.lookup inner with
        | some c, _ => goOn allowance rest (c :: value)
        | none, none => if d.isIncomplete && !d.standsAlone then goOn allowance rest value else none
        | none, some .outside => none
        | none, some (.text chars) =>
          let size := DocumentType.byteSize chars
          let isOpen := opened.contains inner || name = some inner ||
            sources.any fun source => source.name = some inner
          if isOpen || allowance < size then none
          else
            valueFrom d isPlain opened bound (allowance - size)
              ({ name := some inner, rest := chars } :: { name, rest } :: sources) value
    | c :: rest => goOn allowance rest (if isGap c then addSpace isPlain value else c :: value)

/-- The value of an attribute, and what is left of the allowance. Blanks are spaces in it; a value of words has none at
its ends. -/
def value? (d : DocumentType) (isPlain : Bool) (opened : List String) (allowance : Nat)
    (text : List Char) : Option (String × Nat) := do
  let bound := 2 * (text.length + allowance) + 2
  let (value, allowance) ←
    valueFrom d isPlain opened bound allowance [{ name := none, rest := text }] []
  let value := if !isPlain && value.head? = some ' ' then value.drop 1 else value
  return (String.ofList value.reverse, allowance)

abbrev Scan := StateT (List Char) Option

namespace Scan

def token : Scan Token := fun s => Token.next? s

def name : Scan String := do
  match ← token with
  | .name name => return name
  | _ => failure

def anyName : Scan String := do
  match ← token with
  | .name name => return name
  | .qualified name => return name
  | _ => failure

def quoted : Scan (List Char) := do
  match ← token with
  | .quoted text => return text
  | _ => failure

def openGroup : Scan Unit := do
  match ← token with
  | .openGroup => return
  | _ => failure

def close : Scan Unit := do
  match ← token with
  | .close => return
  | _ => failure

def isPublicChar (c : Char) : Bool :=
  c.isAlphanum || " \n\r-'()+,./:=?;!*#@$_%".toList.contains c

def publicName : Scan Unit := do
  if (← quoted).all isPublicChar then return else failure

def entityText? : (bound : Nat) → List Char → Option (List Char)
  | _, [] => some []
  | 0, _ => none
  | _ + 1, '%' :: _ => none
  | bound + 1, '&' :: s => do
    match ← reference? s with
    | (.char c, rest) => return c :: (← entityText? bound rest)
    | (.named name, rest) =>
      return '&' :: name.toList ++ ';' :: (← entityText? bound rest)
  | bound + 1, c :: s => do return c :: (← entityText? bound s)

def place (word : String) : Scan Unit := do
  if word = "PUBLIC" then
    publicName
    let _ ← quoted
  else if word = "SYSTEM" then
    let _ ← quoted
  else failure

def entity (d : DocumentType) : Scan DocumentType := do
  let (isGeneral, name) ←
    match ← token with
    | .percent => pure (false, ← name)
    | .name name => pure (true, name)
    | _ => failure
  let add (e : Entity) : DocumentType := if isGeneral && d.isFollowed then d.addEntity name e else d
  match ← token with
  | .quoted text =>
    close
    if d.isFollowed then
      match entityText? text.length text with
      | some chars => return add (.text chars)
      | none => failure
    else return d
  | .name word =>
    place word
    match ← token with
    | .close => return add .outside
    | .name "NDATA" =>
      if !isGeneral then failure
      let _ ← Scan.name
      close
      return add .outside
    | _ => failure
  | _ => failure

/-- The declaration of a notation; nothing of it is kept. -/
def notationRule : Scan Unit := do
  let _ ← name
  match ← name with
  | "SYSTEM" =>
    let _ ← quoted
    close
  | "PUBLIC" =>
    publicName
    match ← token with
    | .close => return
    | .quoted _ => close
    | _ => failure
  | _ => failure

def alternatives (test : Token → Bool) : (bound : Nat) → Scan Unit
  | 0 => failure
  | bound + 1 => do
    if !test (← token) then failure
    match ← token with
    | .closeGroup none => return
    | .bar => alternatives test bound
    | _ => failure

def isValueWord : Token → Bool
  | .name _ | .qualified _ | .word => true
  | _ => false

def isName : Token → Bool
  | .name _ => true
  | _ => false

def wordKinds : List String :=
  ["ID", "IDREF", "IDREFS", "ENTITY", "ENTITIES", "NMTOKEN", "NMTOKENS"]

def kind (bound : Nat) : Scan Bool := do
  match ← token with
  | .openGroup =>
    alternatives isValueWord bound
    return false
  | .name "CDATA" => return true
  | .name "NOTATION" =>
    openGroup
    alternatives isName bound
    return false
  | .name other => if wordKinds.contains other then return false else failure
  | _ => failure

def fallback : Scan (Option (List Char)) := do
  match ← token with
  | .keyword "IMPLIED" => return none
  | .keyword "REQUIRED" => return none
  | .keyword "FIXED" => return some (← quoted)
  | .quoted text => return some text
  | _ => failure

def addAttribute (d : DocumentType) (element name : String) (isPlain : Bool)
    (text : Option (List Char)) : Option DocumentType :=
  if !d.isFollowed then some d
  else
    match text with
    | none => some (d.addRule { element, name, isPlain, value := none })
    | some text => do
      let (value, allowance) ← value? d isPlain [] d.allowance text
      return { d with allowance }.addRule { element, name, isPlain, value := some value }

def attributes (element : String) : (bound : Nat) → DocumentType → Scan DocumentType
  | 0, _ => failure
  | bound + 1, d => do
    let declare (name : String) : Scan DocumentType := do
      let isPlain ← kind (bound + 1)
      match addAttribute d element name isPlain (← fallback) with
      | some d => attributes element bound d
      | none => failure
    match ← token with
    | .close => return d
    | .name name => declare name
    | .qualified name => declare name
    | _ => failure

def mixed : (bound : Nat) → (isFirst : Bool) → Scan Unit
  | 0, _ => failure
  | bound + 1, isFirst => do
    match ← token with
    | .closeGroup none => if isFirst then close else failure
    | .closeGroup (some '*') => close
    | .bar =>
      let _ ← anyName
      mixed bound false
    | _ => failure

inductive Connector where
  | bar
  | comma
  deriving DecidableEq

/-- The rest of nested groups, given what parts the members of each, the innermost first, and whether a member is next.
One group has one kind of parting. -/
def groups : (bound : Nat) → List (Option Connector) → (isMember : Bool) → Scan Unit
  | 0, _, _ => failure
  | _, [], _ => close
  | bound + 1, connector :: outer, true => do
    match ← token with
    | .openGroup => groups bound (none :: connector :: outer) true
    | .name _ | .qualified _ | .counted => groups bound (connector :: outer) false
    | _ => failure
  | bound + 1, connector :: outer, false => do
    let part (sign : Connector) : Scan Unit :=
      if connector.all (· = sign) then groups bound (some sign :: outer) true else failure
    match ← token with
    | .closeGroup _ => groups bound outer false
    | .bar => part .bar
    | .comma => part .comma
    | _ => failure

def content (bound : Nat) : Scan Unit := do
  let _ ← anyName
  match ← token with
  | .name "EMPTY" => close
  | .name "ANY" => close
  | .openGroup =>
    let inside ← get
    match ← token with
    | .keyword "PCDATA" => mixed bound true
    | _ =>
      set inside
      groups bound [none] true
  | _ => failure

def declarations : (bound : Nat) → DocumentType → Scan DocumentType
  | 0, _ => failure
  | bound + 1, d => do
    match behindRemarks? (bound + 1) (← get) with
    | none => failure
    | some s => set s
    match ← token with
    | .closeList => return d
    | .parameter => declarations bound d.pointElsewhere
    | .declaration "ENTITY" => declarations bound (← entity d)
    | .declaration "ATTLIST" =>
      let element ← anyName
      declarations bound (← attributes element (bound + 1) d)
    | .declaration "ELEMENT" =>
      content (bound + 1)
      declarations bound d
    | .declaration "NOTATION" =>
      notationRule
      declarations bound d
    | _ => failure

def documentType (bound : Nat) (d : DocumentType) : Scan DocumentType := do
  let _ ← anyName
  let inside (d : DocumentType) : Scan DocumentType := do
    let d ← declarations bound d
    close
    return d
  match ← token with
  | .close => return d
  | .openList => inside d
  | .name word =>
    place word
    let d := { d with isIncomplete := true }
    match ← token with
    | .close => return d
    | .openList => inside d
    | _ => failure
  | _ => failure

end Scan

/-- The declarations of a document of `size` bytes, and its text from the first tag on. -/
def behindProlog? (standsAlone : Bool) (size : Nat) (s : List Char) :
    Option (DocumentType × List Char) := do
  let bound := s.length + 1
  let s ← behindRemarks? bound s
  match s with
  | '<' :: '!' :: _ =>
    match ← Token.next? s with
    | (.declaration "DOCTYPE", rest) =>
      let d := { standsAlone, allowance := DocumentType.allowanceOf size }
      let (d, rest) ← Scan.documentType bound d rest
      return (d, ← behindRemarks? bound rest)
    | _ => none
  | _ => return ({ standsAlone }, s)

end QmlScript.Markup
