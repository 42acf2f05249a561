import QmlScript.Proofs.Declaration.Block
import QmlScript.Proofs.Declaration.ValueType

/-!
# Trees of declarations

A `Decl` is a declaration that can be written down: its names are names of the grammar and no keywords, and
the values of its properties are plain values or components. `chars` is its text on one line, and `node` is
what it declares.
-/

namespace QmlScript.Grammar

structure Item where
  name : PlainName
  value : Option Value
  deriving DecidableEq

structure Setting where
  name : PlainName
  value : Value
  deriving DecidableEq

inductive Decl where
  | component (type : TypeName) (body : List Decl)
  | properties (type : PropertyType) (first : Item) (others : List Item)
  | object (type : PropertyType) (name : PlainName) (value : ValueType) (body : List Decl)
  | computed (name : PlainName) (code : Block)
  | alias (name : PlainName) (target : PathName)
  | choice (name : PlainName) (first : ChoiceName) (others : List ChoiceName) (default : Option ChoiceName)
  | signal (name : PlainName)
  | identifier (name : PlainName)
  | assignment (target : PathName) (value : Value)
  | assigned (target : PathName) (value : ValueType) (body : List Decl)
  | scope (target : ScopeName) (first : Setting) (others : List Setting)
  | behavior (first : PathName) (others : List PathName) (animation : TypeName) (body : List Decl)
  | handler (async : Bool) (first : PathName) (others : List PathName) (args : List PlainName) (code : Block)
  | function (async : Bool) (name : PathName) (args : List PlainName) (code : Block)

def listed {α : Type} (chars : α → List Char) (first : α) (others : List α) : List Char :=
  chars first ++ others.flatMap fun a => [',', ' '] ++ chars a

def given {α : Type} (chars : α → List Char) : Option α → List Char
  | some a => [':'] ++ ' ' :: chars a
  | none => []

def Item.chars (item : Item) : List Char := item.name.chars ++ given Value.chars item.value

def assignmentChars (target : List Char) (value : Value) : List Char :=
  ' ' :: target ++ ([':'] ++ (' ' :: value.chars ++ [';']))

def Setting.chars (setting : Setting) : List Char := assignmentChars setting.name.chars setting.value

/-- The arguments of a function, which has at least the parentheses. -/
def argumentChars : List PlainName → List Char
  | [] => []
  | first :: others => listed (fun w : PlainName => w.chars) first others

/-- The arguments of a handler, which leaves out empty parentheses. -/
def handlerArguments : List PlainName → List Char
  | [] => []
  | first :: others => ['('] ++ (listed (fun w : PlainName => w.chars) first others ++ [')'])

def handlerTail (args : List PlainName) (code : Block) : List Char :=
  handlerArguments args ++ ([':'] ++ ' ' :: code.chars)

def functionTail (args : List PlainName) (code : Block) : List Char :=
  ['('] ++ (argumentChars args ++ ([')'] ++ ' ' :: code.chars))

def asyncChars (async : Bool) : List Char := if async then ' ' :: "async".toList else []

def componentChars (type : TypeName) (body : List Char) : List Char :=
  type.chars ++ ([' ', '\x7b'] ++ (body ++ [' ', '\x7d']))

def propertyChars (type s : List Char) : List Char := ' ' :: "property".toList ++ (' ' :: type ++ s)

mutual

def Decl.chars : Decl → List Char
  | .component type body => ' ' :: componentChars type (bodyText body)
  | .properties type first others => propertyChars type.chars (' ' :: listed Item.chars first others ++ [';'])
  | .object type name value body =>
    propertyChars type.chars
      (' ' :: name.chars ++ ([':'] ++ ' ' :: componentChars value.toTypeName (bodyText body)))
  | .computed name code => propertyChars "const".toList (' ' :: name.chars ++ ([':'] ++ ' ' :: code.chars))
  | .alias name target =>
    propertyChars "alias".toList (' ' :: name.chars ++ ([':'] ++ (' ' :: target.chars ++ [';'])))
  | .choice name first others default =>
    propertyChars "enum".toList (' ' :: name.chars ++ ([' ', '\x7b'] ++
      (' ' :: listed (fun w : ChoiceName => w.chars) first others ++ ([' ', '\x7d'] ++
        (given (fun w : ChoiceName => w.chars) default ++ [';'])))))
  | .signal name => ' ' :: "signal".toList ++ (' ' :: name.chars ++ [';'])
  | .identifier name => ' ' :: "id".toList ++ ([':'] ++ (' ' :: name.chars ++ [';']))
  | .assignment target value => assignmentChars target.chars value
  | .assigned target value body =>
    ' ' :: target.chars ++ ([':'] ++ ' ' :: componentChars value.toTypeName (bodyText body))
  | .scope target first others =>
    ' ' :: target.chars ++ ([' ', '\x7b'] ++ ((first :: others).flatMap Setting.chars ++ [' ', '\x7d']))
  | .behavior first others animation body =>
    ' ' :: "Behavior".toList ++ (' ' :: "on".toList ++
      (' ' :: listed (fun w : PathName => w.chars) first others ++ ([' ', '\x7b'] ++
        (' ' :: componentChars animation (bodyText body) ++ [' ', '\x7d']))))
  | .handler async first others args code =>
    asyncChars async ++ (' ' :: listed (fun w : PathName => w.chars) first others ++ handlerTail args code)
  | .function async name args code =>
    asyncChars async ++ (' ' :: "function".toList ++ (' ' :: name.chars ++ functionTail args code))

def bodyText : List Decl → List Char
  | [] => []
  | d :: body => d.chars ++ bodyText body

end

def Value.node (v : Value) : Node Unit := .text (parenthesised v.code)

def Item.node (item : Item) : String × Node Unit :=
  (item.name.text, (item.value.map Value.node).getD .absent)

def Setting.node (setting : Setting) : Node Unit := .assignment () setting.name.text setting.value.node

mutual

def Decl.node : Decl → Node Unit
  | .component type body => .component () type.text (bodyNodes body)
  | .properties type first others => .property () type.text ((first :: others).map Item.node)
  | .object type name value body =>
    .property () type.text [(name.text, .component () value.text (bodyNodes body))]
  | .computed name code => .property () "const" [(name.text, .text code.text)]
  | .alias name target => .alias () name.text target.text
  | .choice name first others default =>
    .choice () name.text ((first :: others).map Ident.text) (default.map Ident.text)
  | .signal name => .signal () name.text
  | .identifier name => .identifier () name.text
  | .assignment target value => .assignment () target.text value.node
  | .assigned target value body =>
    .assignment () target.text (.component () value.text (bodyNodes body))
  | .scope target first others => .scope () target.text ((first :: others).map Setting.node)
  | .behavior first others animation body =>
    .behavior () ((first :: others).map Ident.text) (.component () animation.text (bodyNodes body))
  | .handler async first others args code =>
    .method () ((first :: others).map Ident.text) (args.map Ident.text) code.text true async
  | .function async name args code =>
    .method () [name.text] (args.map Ident.text) code.text false async

def bodyNodes : List Decl → List (Node Unit)
  | [] => []
  | d :: body => d.node :: bodyNodes body

end

theorem bodyText_eq (body : List Decl) : bodyText body = body.flatMap Decl.chars := by
  induction body with
  | nil => rw [bodyText, List.flatMap_nil]
  | cons d body ih => rw [bodyText, ih, List.flatMap_cons]

theorem bodyNodes_eq (body : List Decl) : bodyNodes body = body.map Decl.node := by
  induction body with
  | nil => rw [bodyNodes, List.map_nil]
  | cons d body ih => rw [bodyNodes, ih, List.map_cons]

end QmlScript.Grammar
