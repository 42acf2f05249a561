import QmlScript.Error
import QmlScript.Node
import QmlScript.Script.Reference
import QmlScript.Script.Value

/-!
# Components

A component is what its tree declares, sorted into tables. Its *parts* are kept in the order in which they
were met, and referred to by their position. Methods are told apart from handlers when the component is
prepared.
-/

namespace QmlScript

/-- A method or a handler by the path of its object and its own name. -/
abbrev MethodKey := String × String

/-- A method or a handler as it is declared. -/
structure DeclaredMethod where
  args : List String
  code : String
  event : Bool
  async : Bool

/-- A method or a handler in its place. -/
structure Method where
  args : List String
  code : String
  async : Bool

/-- An entry of the table of methods, before and after preparation. -/
inductive MethodEntry where
  | declared (method : DeclaredMethod)
  | prepared (method : Method)

/-- The handlers by what they wait for: a change, a signal or a key. -/
structure Handlers where
  changed : Table MethodKey Method := {}
  signal : Table MethodKey Method := {}
  key : Table MethodKey Method := {}

/-- A declaration of properties of one type, each with its initial value. -/
structure Property where
  doc : Option String
  type : String
  items : List (String × Tree)

/-- Whether the value is created when it is asked for. -/
def Property.isLazy (p : Property) : Bool := p.type = "lazy"

/-- Whether the value is code that computes it. -/
def Property.isConst (p : Property) : Bool := p.type = "const"

/-- A property with named values. -/
structure Choice where
  doc : Option String
  name : String
  values : List String
  default : Option String

/-- A constant of a type. -/
structure Constant where
  type : String
  value : Json

/-- A value that is assigned: a text, a part, or a tree of another kind. -/
inductive Assigned where
  | text (value : String)
  | part (index : Nat)
  | other (value : Tree)

/-- A type or a part of one, as far as its declarations say. -/
structure Component where
  name : String
  base : String
  /-- Whether it is a type of its own, or a part of one. -/
  prototype : Bool
  id : Option String := none
  ctor : String := ""
  prototypeCtor : String := ""
  properties : List Property := []
  /-- The declarations of properties by name. -/
  declared : Table String Property := {}
  aliases : Table String String := {}
  choices : Table String Choice := {}
  constants : Table String Constant := {}
  constProperties : Table String Tree := {}
  signals : NameSet := []
  rows : List Json := []
  methods : Table MethodKey MethodEntry := {}
  handlers : Option Handlers := none
  children : List Nat := []
  assignments : Table String Assigned := {}
  animations : Table String Nat := {}
  lazyParts : Table String Nat := {}
  parts : List Component := []

namespace Component

/-- The package of its name. -/
def package (c : Component) : String := Package.ofName c.name

/-- Its name without the package, as scripts spell it. -/
def className (c : Component) : String := Package.escape (Package.splitName c.name).2

/-- The name of its type in scripts. -/
def mangledName (c : Component) : String := Package.mangle c.package ++ "." ++ c.className

/-- The variable for its constructor. -/
def localName (c : Component) : String := c.className ++ "Component"

/-- The variable for the constructor of its base. -/
def baseLocalName (c : Component) : String := c.className ++ "BaseComponent"

/-- The variable for its prototype. -/
def protoName (c : Component) : String := c.className ++ "Prototype"

/-- The variable for the prototype of its base. -/
def baseProtoName (c : Component) : String := c.className ++ "BasePrototype"

/-- Whether the name is taken by a property, an alias or a choice. -/
def hasProperty (c : Component) (name : String) : Bool :=
  c.declared.contains name || c.aliases.contains name || c.choices.contains name

/-- The part at a position. -/
def part? (c : Component) (index : Nat) : Option Component := c.parts[index]?

/-- The component with one more part, and the position of it. -/
def addPart (c : Component) (part : Component) : Component × Nat :=
  ({ c with parts := c.parts ++ [part] }, c.parts.length)

/-- The part at the end of a path of positions. -/
def at? : List Nat → Component → Option Component
  | [], c => some c
  | index :: path, c => (c.part? index).bind (at? path)

/-- The component with another part at the end of a path. -/
def setAt (part : Component) : List Nat → Component → Component
  | [], _ => part
  | index :: path, c => { c with parts := c.parts.modify index (setAt part path) }

mutual

/-- The identifiers of a component and of all parts inside. -/
def ids : Component → List String
  | { id, parts, .. } => id.toList ++ idsOfParts parts

/-- The identifiers of several parts. -/
def idsOfParts : List Component → List String
  | [] => []
  | part :: parts => ids part ++ idsOfParts parts

end

/-- A name in the package of the component. -/
def inPackage (c : Component) (name : String) : String := c.package ++ "." ++ name

/-- Whether a value can be written where the property is declared. -/
def isTrivialValue : Tree → Except Error Bool
  | .plain value => (Script.isTrivial value).mapError fun _ => .emptyValue
  | _ => .ok false

/-- Give a value to a property that has none. -/
def assign (c : Component) (target : String) (value : Assigned) : Except Error Component :=
  if c.assignments.contains target then .error (.doubleAssignment target c.name c.base)
  else .ok { c with assignments := c.assignments.insert target value }

/-- Lines that are continued become one. -/
def joinLines (text : String) : String := replaceText "\\\n" "" text

/-- What is stored for a plain value. -/
def assignedPlain : Json → Assigned
  | .str text => .text (joinLines text)
  | value => .other (.plain value)

/-- Add a method under one name; two names are those of constructors. -/
def addMethod (c : Component) (method : DeclaredMethod) (name : String) : Except Error Component :=
  if name = "constructor" then
    if c.ctor ≠ "" then .error .duplicateConstructor
    else .ok { c with ctor := "\t//custom constructor:\n\t" ++ method.code ++ "\n" }
  else if name = "prototypeConstructor" then
    if !c.prototype then .error .prototypeCodeInPart
    else if c.prototypeCtor ≠ "" then .error .duplicateConstructor
    else .ok { c with prototypeCtor := method.code }
  else
    let key := Package.splitName name
    if c.methods.contains key then .error (.duplicateMethod name)
    else .ok { c with methods := c.methods.insert key (.declared method) }

/-- Add a method under each of its names. -/
def addMethods (c : Component) (method : DeclaredMethod) : List String → Except Error Component
  | [] => .ok c
  | name :: names => do addMethods (← c.addMethod method name) method names

/-- Add an animation for each property, which none of them has. -/
def animate (c : Component) (animation : Except Error Component) :
    List String → Except Error Component
  | [] => .ok c
  | target :: targets => do
    if c.animations.contains target then throw (.duplicateAnimation target)
    let (c, index) := c.addPart (← animation)
    animate { c with animations := c.animations.insert target index } animation targets

mutual

/-- Add declarations in order; name clashes and values given twice are refused. -/
def addAll (c : Component) : List Tree → Except Error Component
  | [] => .ok c
  | child :: children => do addAll (← addChild c child) children

/-- Add one declaration. -/
def addChild (c : Component) : Tree → Except Error Component
  | .component _ base body => do
    let part ← addAll { name := c.inPackage "<anonymous>", base, prototype := false } body
    let (c, index) := c.addPart part
    return { c with children := c.children ++ [index] }
  | .property doc type items =>
    let declaration : Property := { doc, type, items }
    addItems { c with properties := c.properties ++ [declaration] } declaration items
  | .const _ type name value =>
    if c.constants.contains name then .error (.duplicateConstant name)
    else .ok { c with constants := c.constants.insert name { type, value } }
  | .alias _ name target =>
    if c.hasProperty name then .error (.duplicateName name)
    else .ok { c with aliases := c.aliases.insert name target }
  | .choice doc name values default =>
    if c.hasProperty name then .error (.duplicateName name)
    else .ok { c with choices := c.choices.insert name { doc, name, values, default } }
  | .method _ names args code event async => addMethods c { args, code, event, async } names
  | .identifier _ name =>
    { c with id := some name }.assign "id" (assignedPlain (.str name))
  | .assignment _ target value =>
    if target = "id" then .error .expressionForId else assignNode c target value
  | .scope _ target values => assignScope c target values
  | .behavior _ targets (.component _ base body) =>
    let name := c.inPackage "<anonymous-animation>"
    animate c (addAll { name, base, prototype := false } body) targets
  | .behavior _ targets _ => animate c (.error .wrongKind) targets
  | .signal _ name =>
    if c.signals.contains name then .error (.duplicateSignal name)
    else .ok { c with signals := NameSet.add c.signals name }
  | .row data => .ok { c with rows := c.rows ++ [data] }
  | .plain value => .error (.unhandled value.display)

/-- Declare properties, and store initial values that are not written in place. -/
def addItems (c : Component) (declaration : Property) : List (String × Tree) → Except Error Component
  | [] => .ok c
  | (name, value) :: items => do
    if c.hasProperty name then throw (.duplicateProperty c.name name)
    let c := { c with declared := c.declared.insert name declaration }
    let c ←
      if declaration.isLazy then
        match value with
        | .component _ base body =>
          if declaration.items.length ≠ 1 then throw (.lazyNotAlone name)
          let part ← addAll
            { name := c.inPackage ("<lazy:" ++ name ++ ">"), base, prototype := false } body
          let (c, index) := c.addPart part
          pure { c with lazyParts := c.lazyParts.insert name index }
        | _ => throw .lazyWithoutComponent
      else if declaration.isConst then
        if declaration.items.length ≠ 1 then throw (.constNotAlone name)
        pure { c with constProperties := c.constProperties.insert name value }
      else
        match value with
        | .plain .null => pure c
        | .plain value =>
          if ← isTrivialValue (.plain value) then pure c else c.assign name (assignedPlain value)
        | .component _ base body =>
          let part ← addAll { name := c.inPackage "<anonymous>", base, prototype := false } body
          let (c, index) := c.addPart part
          c.assign name (.part index)
        | other => c.assign name (.other other)
    addItems c declaration items

/-- Assign a tree; a component becomes a part. -/
def assignNode (c : Component) (target : String) : Tree → Except Error Component
  | .component _ base body => do
    let part ← addAll { name := c.inPackage "<anonymous>", base, prototype := false } body
    let (c, index) := c.addPart part
    c.assign target (.part index)
  | .plain value => c.assign target (assignedPlain value)
  | other => c.assign target (.other other)

/-- Assign the values of a block that belongs to an object. -/
def assignScope (c : Component) (object : String) : List Tree → Except Error Component
  | [] => .ok c
  | .assignment _ target value :: values => do
    assignScope (← assignNode c (object ++ "." ++ target) value) object values
  | .behavior _ _ _ :: _ => .error .notText
  | _ :: _ => .error .wrongKind

end

/-- The component of a tree. -/
def build (name : String) (prototype : Bool) : Tree → Except Error Component
  | .component _ base body => addAll { name, base, prototype } body
  | _ => .error .wrongKind

end Component

end QmlScript
