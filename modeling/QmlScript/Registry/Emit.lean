import QmlScript.Registry.Handlers
import QmlScript.Script.Template

/-!
# Scripts of components

The script of a component has two halves. The *creators* make the objects of its parts and put them into slots
of a closure; the *setup* takes them out again, gives values to properties, attaches handlers and completes
the objects.
-/

namespace QmlScript.Registry

/-- The two halves of a component's script, given the variable, the closure and an indentation. -/
structure Emitter where
  creators : (parent closure : String) → (indent : Nat) → Work String
  setup : (parent closure : String) → (indent : Nat) → Work String

/-- A part of a component with its script. -/
structure Part where
  component : Component
  emitter : Emitter

def tabs (n : Nat) : String := String.ofList (List.replicate n '\t')

def partAt (parts : List Part) (index : Nat) : Work Part :=
  match parts[index]? with
  | some part => pure part
  | none => throw .wrongKind

/-- Create an object: fill its slot, then create its parts. -/
def callCreate (indent : Nat) (target closure : String) (part : Part) : Work String := do
  let inside ← part.emitter.creators target closure indent
  return "\n//creating component " ++ part.component.base ++ "\n" ++
    tabs indent ++ target ++ ".$c(" ++ closure ++ ".$c$" ++ target ++ " = \x7b \x7d)\n" ++ inside

/-- Set an object up: read its slot, delete it, set its parts up. -/
def callSetup (indent : Nat) (target closure : String) (part : Part) : Work String := do
  let inside ← part.emitter.setup target closure indent
  return "\n//setting up component " ++ part.component.base ++ "\n" ++
    tabs indent ++ "var " ++ target ++ " = " ++ closure ++ "." ++ target ++ "\n" ++
    tabs indent ++ target ++ ".$s(" ++ closure ++ ".$c$" ++ target ++ ")\n" ++
    tabs indent ++ "delete " ++ closure ++ ".$c$" ++ target ++ "\n" ++ "\n" ++ inside

/-- A function that creates a whole object. -/
def creatorFunction (name : String) (indent : Nat) (part : Part) : Work String := do
  let type ← findMangled part.component.package part.component.base
  let created ← callCreate (indent + 1) name "$c" part
  let settled ← callSetup (indent + 1) name "$c" part
  let code := tabs indent ++ "var " ++ name ++ " = new " ++ type ++ "(__parent, __row)\n" ++
    tabs indent ++ "var $c = \x7b " ++ name ++ " : " ++ name ++ " \x7d\n" ++
    created ++ "\n" ++ settled ++ "\n"
  return "(function(__parent, __row) \x7b\n" ++ code ++ "\n" ++ tabs indent ++ "return " ++ name ++
    "\n\x7d)"

/-- A property whose value is created when it is asked for. -/
def lazyProperty (object name : String) (indent : Nat) (part : Part) : Work String := do
  let code ← creatorFunction ("lazy$" ++ name) (indent + 1) part
  return tabs indent ++ "core.addLazyProperty(" ++ object ++ ", '" ++ name ++ "', " ++ code ++ ")"

/-- A property that is computed by a code. -/
def constProperty (object name : String) (code : Tree) : String :=
  let code :=
    match code with
    | .plain value => value.display
    | _ => ""
  "\tcore.addConstProperty(" ++ object ++ ", '" ++ name ++ "', function() " ++ code ++ ")"

/-- The initial value of a property that is given at once, if trivial. -/
def trivialDefault (c : Component) (value : Tree) : Work (Option String) := do
  unless ← check (Component.isTrivialValue value) do return none
  match value with
  | .plain (.str text) =>
    let (text, deps) ← Script.dependencies "@error" text (pathRoot c none)
    unless deps.isEmpty do throw (.dependentDefault deps text)
    return some text
  | _ => throw .notText

/-- The line that declares a property. -/
def propertyLine (c : Component) (parts : List Part) (object : String) (indent lineIndent : Nat)
    (declaration : Property) (name : String) (value : Tree) : Work String := do
  if declaration.isLazy then
    match c.lazyParts.get? name with
    | some index => lazyProperty object name indent (← partAt parts index)
    | none => throw .wrongKind
  else if declaration.isConst then
    return constProperty object name ((c.constProperties.get? name).getD .absent)
  else
    let default ← trivialDefault c value
    let args := [object, "'" ++ declaration.type ++ "'", "'" ++ name ++ "'"] ++ default.toList
    return tabs lineIndent ++ "core.addProperty(" ++ ", ".intercalate args ++ ")"

def propertyLines (c : Component) (parts : List Part) (object : String) (indent lineIndent : Nat) :
    Work (List String) := do
  let lines ← c.properties.mapM fun declaration =>
    declaration.items.mapM fun (name, value) =>
      propertyLine c parts object indent lineIndent declaration name value
  return lines.flatten

/-- Signals and properties of a part, which has no choices or constants. -/
def instanceDeclarations (c : Component) (parts : List Part) (parent : String) (indent : Nat) :
    Work (List String) := do
  let signals := c.signals.map fun name =>
    tabs indent ++ parent ++ "." ++ name ++ " = $core.createSignal('" ++ name ++ "').bind(" ++
      parent ++ ")"
  let properties ← propertyLines c parts parent indent 1
  match c.choices.keys with
  | name :: _ => throw (.choiceInPart name)
  | [] => pure ()
  match c.constants.keys with
  | name :: _ => throw (.constantInPart name)
  | [] => pure ()
  return signals ++ properties

/-- The variable of a child. -/
def childVariable (parent : String) (position : Nat) : String :=
  Package.escape parent ++ "$child" ++ toString position

/-- The variable of a component that is given to a property. -/
def valueVariable (parent target : String) : String :=
  Package.escape parent ++ "$" ++ Package.escape target

/-- Create a child and add it. -/
def createChild (c : Component) (parts : List Part) (parent closure : String) (indent : Nat)
    (position index : Nat) : Work (List String) := do
  let part ← partAt parts index
  let var := childVariable parent position
  let type ← findMangled c.package part.component.base
  let inside ← callCreate indent var closure part
  return [
    tabs indent ++ "var " ++ var ++ " = new " ++ type ++ "(" ++ parent ++ ")",
    tabs indent ++ closure ++ "." ++ var ++ " = " ++ var,
    inside,
    tabs indent ++ parent ++ ".addChild(" ++ var ++ ")"]

/-- Check the target of an assignment; the identifier is set at once. -/
def createTarget (c : Component) (parent : String) (indent : Nat) (target : String)
    (value : Assigned) : Work (List String) := do
  if target = "id" then
    match value with
    | .text id =>
      if id.toList.contains '.' then throw .idIsExpression
      return [tabs indent ++ parent ++ "._setId('" ++ id ++ "')"]
    | _ => throw .notText
  else if endsWithText ".id" target then throw .remoteId
  else
    checkTarget c target
    return []

/-- Create a component that is given to a property. -/
def createValue (parts : List Part) (parent closure : String) (indent : Nat) (target : String) :
    Assigned → Work (List String)
  | .part index => do
    let part ← partAt parts index
    if target = "delegate" then
      let code ← creatorFunction "delegate" indent part
      return [tabs indent ++ parent ++ "." ++ target ++ " = " ++ code]
    else
      let var := valueVariable parent target
      let type ← findMangled part.component.package part.component.base
      let inside ← callCreate indent var closure part
      return [
        "//creating component " ++ part.component.name,
        tabs indent ++ "var " ++ var ++ " = new " ++ type ++ "(" ++ parent ++ ")",
        tabs indent ++ closure ++ "." ++ var ++ " = " ++ var,
        inside,
        tabs indent ++ parent ++ "." ++ target ++ " = " ++ var]
  | _ => return []

/-- The line that declares an alias. -/
def aliasLine (c : Component) (parent : String) (indent : Nat) (name target : String) :
    Work String := do
  let (object, property) ← Script.accessors parent target (pathRoot c none)
  return tabs indent ++ "core.addAliasProperty(" ++ parent ++ ", '" ++ name ++
    "', function() \x7b return " ++ object ++ " \x7d, '" ++ property ++ "')"

/-- Declare and create all that a component has. -/
def createParts (c : Component) (parts : List Part) (parent closure : String) (indent : Nat)
    (declarations : List String) : Work String := do
  let children ← (c.children.zipIdx).mapM fun (index, position) =>
    createChild c parts parent closure indent position index
  let values ← c.assignments.entries.mapM fun (target, value) => do
    let checked ← createTarget c parent indent target value
    return checked ++ (← createValue parts parent closure indent target value)
  let aliases ← c.aliases.entries.mapM fun (name, target) => aliasLine c parent indent name target
  return "\n".intercalate (declarations ++ children.flatten ++ values.flatten ++ aliases)

/-- The first half of a script. -/
def creators (c : Component) (parts : List Part) (parent closure : String) (indent : Nat) : Work String := do
  let declarations ←
    if c.prototype then pure [] else instanceDeclarations c parts parent indent
  createParts c parts parent closure indent declarations

/-- The lines that give a value to a property, with its dependencies. -/
def assignedLines (parent target filled : String) (indent : Nat) (script : String) (deps : List Script.Dependency) :
    List String :=
  let (owner, slot, name) := Script.assignmentTarget parent target
  let comment := "//assigning " ++ target ++ " to " ++ filled
  if deps.isEmpty then
    [comment, tabs indent ++ owner ++ "._removeUpdater('" ++ name ++ "'); " ++ slot ++ " = " ++ script ++ ";"]
  else
    let sources := deps.flatMap fun (object, property) => [object, "'" ++ property ++ "'"]
    [comment, tabs indent ++ owner ++ "._replaceUpdater('" ++ name ++ "', function() \x7b " ++ slot ++ " = " ++
      script ++ " \x7d, [" ++ ",".intercalate sources ++ "])"]

/-- Give a value to a property, now and when its dependencies change. -/
def assignText (c : Component) (parent : String) (indent : Nat) (target value : String) :
    Work (List String) := do
  let (_, _, name) := Script.assignmentTarget parent target
  let filled ← check (Script.fillTemplate name (← resolveChoices c value))
  let (script, deps) ← Script.dependencies parent filled (pathRoot c none)
  return assignedLines parent target filled indent script deps

/-- Give a value to its property, or set a component up. -/
def setupValue (c : Component) (parts : List Part) (parent closure : String) (indent : Nat)
    (target : String) (value : Assigned) : Work (List String) := do
  if target = "id" then return []
  match value with
  | .text value => assignText c parent indent target value
  | .part index =>
    if target = "delegate" then return []
    return [← callSetup indent (valueVariable parent target) closure (← partAt parts index)]
  | .other (.plain value) => throw (.skipped target value.display)
  | .other _ => throw (.skipped target "a declaration")

def keyLt (a b : MethodKey) : Bool := pairLt a b

/-- Lines, and the number of the next shared function. -/
abbrev Lines := List String × Nat

/-- The text of a function; one that several handlers share is a variable. -/
def shareCode (indent : Nat) (lines : Lines) (code : String) (count : Nat) : Lines × String :=
  if 1 < count then
    let var := "$code$" ++ toString lines.2
    ((lines.1 ++ [tabs indent ++ "var " ++ var ++ " = " ++ code], lines.2 + 1), var)
  else (lines, code)

/-- Lines for functions and the handlers that share them; `keep` selects handlers, `line` writes one. -/
def handlerLines (indent : Nat) (keep : MethodKey → Bool)
    (line : (code : String) → MethodKey → Work String) (arrange : List MethodKey → List MethodKey) :
    Lines → List (String × List MethodKey) → Work Lines
  | lines, [] => return lines
  | lines, (code, keys) :: functions => do
    let keys := keys.filter keep
    if keys.isEmpty then handlerLines indent keep line arrange lines functions
    else
      let (lines, code) := shareCode indent lines code keys.length
      let written ← (arrange keys).mapM (line code)
      handlerLines indent keep line arrange (lines.1 ++ written, lines.2) functions

/-- The handlers of a prepared component. -/
def handlersOf (c : Component) : Work Handlers :=
  match c.handlers with
  | some handlers => pure handlers
  | none => throw .notPrepared

/-- Lines that attach the methods of a part. -/
def methodLines (c : Component) (parent : String) (indent : Nat) :
    Lines → List (String × List MethodKey) → Work Lines
  | lines, [] => return lines
  | lines, (code, keys) :: functions => do
    let (lines, code) := shareCode indent lines code keys.length
    let (_, written) ← (sortBy keyLt keys).foldlM
      (fun (code, written) (path, name) => do
        let object ← Script.pathOrParent path parent (pathRoot c none)
        let code := replaceText "@super." ((← mangledBaseOf c) ++ ".prototype.") code
        return (code, written ++
          [tabs indent ++ object ++ "." ++ name ++ " = " ++ code ++ ".bind(" ++ parent ++ ")"]))
      (code, [])
    methodLines c parent indent (lines.1 ++ written, lines.2) functions

/-- A line that attaches a handler with `method`; one for another object if the object is there. -/
def attachLine (c : Component) (parent : String) (indent : Nat) (method : String) (guarded : Bool)
    (code : String) (key : MethodKey) : Work String := do
  let object ← Script.pathOrParent key.1 parent (pathRoot c (some parent))
  let call := object ++ "." ++ method ++ "('" ++ key.2 ++ "', " ++ code ++ ".bind(" ++ parent ++ "))"
  return tabs indent ++ (if guarded && key.1 ≠ "" then "if (" ++ object ++ ") " else "") ++ call

/-- The function that attaches handlers of a kind to an object. -/
def HandlerKind.method : HandlerKind → String
  | .signal => "on"
  | .changed => "onChanged"
  | .key => "onPressed"

/-- The function that attaches handlers of a kind to a prototype. -/
def HandlerKind.prototypeMethod : HandlerKind → String
  | .signal => "_protoOn"
  | .changed => "_protoOnChanged"
  | .key => "_protoOnKey"

/-- Attach the handlers of a kind; those of a type itself stand in its prototype. -/
def attachTable (c : Component) (parent : String) (indent : Nat) (kind : HandlerKind) (handlers : Handlers)
    (lines : Lines) : Work Lines := do
  handlerLines indent (fun key => key.1 ≠ "" || !c.prototype) (attachLine c parent indent kind.method (kind ≠ .key))
    (sortBy keyLt) lines (← functions c (kind.table handlers))

/-- Attach all handlers. -/
def attachHandlers (c : Component) (parent : String) (indent : Nat) (lines : Lines) : Work (List String) := do
  let lines ← attachTable c parent indent .signal (← handlersOf c) lines
  let lines ← attachTable c parent indent .changed (← handlersOf c) lines
  let lines ← attachTable c parent indent .key (← handlersOf c) lines
  return lines.1

/-- Attach the methods of a part and all handlers. -/
def attachments (c : Component) (parent : String) (indent : Nat) : Work (List String) := do
  let lines ←
    if c.prototype then pure ([], 0)
    else
      let methods ← check (preparedMethods c.methods.entries)
      methodLines c parent indent ([], 0) (← functions c ⟨methods⟩)
  attachHandlers c parent indent lines

/-- Create an animation, set it up and attach it. -/
def animationLines (c : Component) (parts : List Part) (parent : String) (name : String)
    (index : Nat) : Work (List String) := do
  let part ← partAt parts index
  let var := "behavior_" ++ Package.escape parent ++ "_on_" ++ Package.escape name
  let type ← findMangled c.package part.component.base
  let created ← callCreate 1 var (var ++ "$c") part
  let settled ← callSetup 1 var (var ++ "$c") part
  let (path, property) := Package.splitName name
  let object ← if path = "" then pure parent else readPath c parent path
  return [
    "\tvar " ++ var ++ " = new " ++ type ++ "(" ++ parent ++ ")",
    "\tvar " ++ var ++ "$c = \x7b " ++ var ++ ": " ++ var ++ " \x7d",
    created,
    settled,
    "\t" ++ object ++ ".setAnimation('" ++ property ++ "', " ++ var ++ ");\n"]

def animations (c : Component) (parts : List Part) (parent : String) : Work String := do
  let lines ← c.animations.entries.mapM fun (name, index) => animationLines c parts parent name index
  return "\n".intercalate lines.flatten

/-- What stands before the attachments of an object: values of properties. -/
def setupFront (c : Component) (parts : List Part) (parent closure : String) (indent : Nat) : Work (List String) := do
  let values ← c.assignments.entries.mapM fun (target, value) =>
    setupValue c parts parent closure indent target value
  return values.flatten

/-- What stands behind the attachments: children, rows and animations. -/
def setupBack (c : Component) (parts : List Part) (parent closure : String) (indent : Nat) : Work (List String) := do
  let children ← (c.children.zipIdx).mapM fun (index, position) => do
    callSetup indent (childVariable parent position) closure (← partAt parts index)
  let rows :=
    if c.rows.isEmpty then []
    else [tabs indent ++ parent ++ ".assign(" ++ (Json.sortKeys (.arr c.rows)).text ++ ")"]
  let animated ← animations c parts parent
  return children ++ rows ++ [animated, tabs indent ++ parent ++ ".completed()"]

/-- The second half of a script. -/
def setup (c : Component) (parts : List Part) (parent closure : String) (indent : Nat) : Work String := do
  let front ← setupFront c parts parent closure indent
  let attached ← attachments c parent indent
  let back ← setupBack c parts parent closure indent
  return "\n".intercalate (front ++ attached ++ back)

/-! ## All parts of a component -/

mutual

/-- The two halves of the script of a component. -/
def emitter : Component → Emitter
  | c@{ parts, .. } =>
    let parts := emitParts parts
    { creators := creators c parts, setup := setup c parts }

def emitParts : List Component → List Part
  | [] => []
  | part :: parts => { component := part, emitter := emitter part } :: emitParts parts

end

/-- The constructor of a type. -/
def constructorText (c : Component) : Work String := do
  let base ← mangledBaseOf c
  return "\n".intercalate [
    "\tvar " ++ c.baseLocalName ++ " = " ++ base,
    "\tvar " ++ c.baseProtoName ++ " = " ++ c.baseLocalName ++ ".prototype",
    "",
    "/**\n * @constructor",
    " * @extends \x7b" ++ base ++ "\x7d",
    " */",
    "\tvar " ++ c.localName ++ " = " ++ Package.mangle c.package ++ "." ++ c.className ++
      " = function(parent, row) \x7b",
    "\t\t" ++ c.baseLocalName ++ ".apply(this, arguments)",
    c.ctor,
    "\t\x7d",
    ""]

/-- The values of a choice as numbers, and its property. -/
def choiceLines (c : Component) (indent : Nat) (choice : Choice) : List String :=
  let values := choice.values.zipIdx.flatMap fun (value, position) => [
    "/** @const @type \x7bnumber\x7d */",
    tabs indent ++ c.protoName ++ "." ++ value ++ " = " ++ toString position,
    "/** @const @type \x7bnumber\x7d */",
    tabs indent ++ c.localName ++ "." ++ value ++ " = " ++ toString position]
  let args := [c.protoName, "'enum'", "'" ++ choice.name ++ "'"] ++
    choice.default.toList.map fun default => c.localName ++ "." ++ default
  values ++ [tabs indent ++ "core.addProperty(" ++ ", ".intercalate args ++ ")"]

def constantLines (c : Component) (indent : Nat) (name : String) (constant : Constant) :
    List String := [
  "/** @const */",
  tabs indent ++ c.protoName ++ "." ++ name ++ " = " ++ c.localName ++ "." ++ name ++
    " = $core.core.convertTo('" ++ constant.type ++ "', " ++ constant.value.text ++ ")"]

/-- Lines that attach methods to a prototype. -/
def prototypeMethodLines (c : Component) (indent : Nat) :
    Lines → List (String × List MethodKey) → Work Lines
  | lines, [] => return lines
  | lines, (code, keys) :: functions => do
    let (lines, code) := shareCode indent lines code keys.length
    let written ← keys.mapM fun (path, name) => do
      if path ≠ "" then throw (.qualifiedMethod path name c.name)
      let code := replaceText "@super." (c.baseProtoName ++ ".") code
      return tabs indent ++ c.protoName ++ "." ++ name ++ " = " ++ code
    prototypeMethodLines c indent (lines.1 ++ written, lines.2) functions

/-- Lines that attach handlers of a kind to a prototype. -/
def prototypeHandlerLines (c : Component) (indent : Nat) (kind : HandlerKind) (handlers : Handlers)
    (lines : Lines) : Work Lines := do
  handlerLines indent (fun key => key.1 = "")
    (fun code key => pure (tabs indent ++ "$core." ++ kind.prototypeMethod ++ "(" ++ c.protoName ++ ", '" ++ key.2 ++
      "', " ++ code ++ ")")) id lines (← functions c (kind.table handlers))

/-- What stands in front of the methods of a type: its declarations. -/
def prototypeFront (c : Component) (indent : Nat) : Work (List String) := do
  let ident := tabs indent
  let head := [ident ++ "var " ++ c.protoName ++ " = " ++ c.localName ++
      ".prototype = Object.create(" ++ c.baseProtoName ++ ")\n"] ++
    (if c.prototypeCtor = "" then [] else ["\t" ++ c.prototypeCtor ++ "\n"]) ++ [
    ident ++ c.protoName ++ ".constructor = " ++ c.localName ++ "\n",
    ident ++ c.protoName ++ ".componentName = '" ++ c.name ++ "'"]
  let signals := c.signals.map fun name =>
    ident ++ c.protoName ++ "." ++ name ++ " = $core.createSignal('" ++ name ++ "')"
  let properties ← propertyLines c (emitParts c.parts) c.protoName indent indent
  let choices := c.choices.values.flatMap (choiceLines c indent)
  let constants := c.constants.entries.flatMap fun (name, constant) =>
    constantLines c indent name constant
  return head ++ signals ++ properties ++ choices ++ constants

/-- The methods and handlers of a type, behind other lines. -/
def prototypeStage (c : Component) (methods : List (MethodKey × Method)) (handlers : Handlers) (indent : Nat)
    (lines : Lines) : Work Lines := do
  let lines ← functions c ⟨methods⟩ >>= prototypeMethodLines c indent lines
  let lines ← prototypeHandlerLines c indent .changed handlers lines
  let lines ← prototypeHandlerLines c indent .signal handlers lines
  prototypeHandlerLines c indent .key handlers lines

/-- What is behind the handlers of a type: functions for the two halves. -/
def prototypeBack (c : Component) (indent : Nat) (created settled : String) : List String :=
  let ident := tabs indent
  let created := String.ofList (Text.trim created.toList)
  let create := ident ++ c.protoName ++ ".$c = function($c) \x7b\n\t\tvar $this = this;\n" ++
    "\t" ++ ident ++ c.baseProtoName ++ ".$c.call(this, $c.$b = \x7b \x7d)" ++ "\n" ++ created ++ "\n" ++
    ident ++ "\x7d"
  let settled := String.ofList (Text.trim settled.toList)
  let settle := ident ++ c.protoName ++ ".$s = function($c) \x7b\n\t\tvar $this = this;\n" ++
    ident ++ c.baseProtoName ++ ".$s.call(this, $c.$b); delete $c.$b" ++ "\n" ++ settled ++ "\n\x7d"
  if created = "" && settled = "" then [] else ["", create, settle, ""]

/-- The script of the prototype of a type. -/
def prototypeText (c : Component) (indent : Nat) : Work String := do
  unless c.prototype do throw .notAType
  let front ← prototypeFront c indent
  let methods ← check (preparedMethods c.methods.entries)
  let lines ← prototypeStage c methods (← handlersOf c) indent (front, 0)
  let created ← (emitter c).creators "$this" "$c" (indent + 1)
  let settled ← (emitter c).setup "$this" "$c" (indent + 2)
  return "\n".intercalate (lines.1 ++ prototypeBack c indent created settled)

/-- The section of a type: its constructor and its prototype. -/
def sectionText (c : Component) : Work String := do
  modify fun r => { r with usedPackages := NameSet.add r.usedPackages c.package }
  let constructor ← constructorText c
  let prototype ← prototypeText c 1
  return "\n\n//=====[component " ++ c.name ++ "]=====================\n\n" ++ constructor ++ prototype

end QmlScript.Registry
