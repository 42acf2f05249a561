import QmlScript.Registry

/-!
# Properties and handlers of components

A component has the properties that it declares and those of its base. Before it is generated its methods are
sorted: a handler whose name is `on` and something more handles a key, if its name ends in `Pressed`, a change of a
property, if it ends in `Changed`, and a signal otherwise, or if the base has a signal of that very name.
-/

namespace QmlScript.Registry

/-- What a name of a property may stand for. -/
inductive Found where
  | property (declaration : Property)
  | choice (declaration : Choice)
  | alias (target : String)

/-- Whether the find stands for a property: an alias needs a target. -/
def Found.isReal : Found → Bool
  | .alias target => target ≠ ""
  | _ => true

/-- What a name stands for in the component itself. -/
def ownProperty? (c : Component) (name : String) : Option Found :=
  (c.declared.get? name).map Found.property <|> (c.choices.get? name).map Found.choice <|>
    (c.aliases.get? name).map Found.alias

/-- Look for a property in a component and less than `bound` bases. -/
def findPropertyUpTo (name : String) : (bound : Nat) → Component → Work (Option Found)
  | 0, _ => throw .endlessBases
  | bound + 1, c => do
    match ownProperty? c name with
    | some found => return some found
    | none =>
      let base ← baseOf c
      if base = root then return none
      else findPropertyUpTo name bound (← component base)

/-- What a name means in a component or its bases, at most as many as there are components. -/
def findProperty (c : Component) (name : String) : Work (Option Found) := do
  findPropertyUpTo name ((← get).components.size + 2) c

/-- Whether a component has a property of a name. -/
def hasProperty (c : Component) (name : String) : Work Bool := do
  return (← findProperty c name).any Found.isReal

/-- Refuse a target that starts at no property and at no identifier. -/
def checkTarget (c : Component) (target : String) : Work Unit := do
  match splitText '.' target with
  | head :: _ :: _ =>
    if (← get).ids.contains head then return
    unless ← hasProperty c head do throw (.unknownProperty head c.name c.base)
  | _ => unless ← hasProperty c target do throw (.unknownProperty target c.name c.base)

/-- The first segment of a path inside a component. Objects are looked up from `parent`, if it is given. -/
def pathRoot (c : Component) (parent : Option String) (name : String) : Work String := do
  let lookUp := fun (name : String) (fallback : String) =>
    match parent with
    | some p => if p = "" then fallback else p ++ "._get('" ++ name ++ "')"
    | none => fallback
  if name = "context" then return lookUp name "_context"
  else if name = "parent" then return "parent"
  else if ← hasProperty c name then return name
  else return lookUp name ("_get('" ++ name ++ "')")

/-- A path that is read from an object. -/
def readPath (c : Component) (parent target : String) : Work String := do
  return parent ++ "." ++ (← Script.joinPath (pathRoot c none) (splitText '.' target))

/-- Whether a name is `on` and more, apart from two names. -/
def isHandlerName (name : List Char) : Bool :=
  2 < name.length && name ≠ "onCompleted".toList && name ≠ "onChanged".toList &&
    Text.startsWith ['o', 'n'] name

/-- What a handler handles: the name from its third character, made small. -/
def handledName (name : List Char) : List Char :=
  match name.drop 2 with
  | c :: rest => Text.small c ++ rest
  | [] => []

/-- The text less seven characters, the length of `Changed` and `Pressed`. -/
def dropEnding (name : List Char) : List Char := name.take (name.length - 7)

/-- The name of a key that a handler is for. -/
def keyName (name : List Char) : List Char :=
  match name with
  | c :: _ => Text.capital c ++ (name.take (name.length - 7)).drop 1
  | [] => []

/-- The signals of a base; the root of all types has none to ask for. -/
def signalsOf : Option Component → Except Error NameSet
  | some base => .ok base.signals
  | none => .error .rootHasNoSignals

/-- What a handler is for. -/
inductive HandlerKind where
  | key
  | changed
  | signal
  deriving DecidableEq, Repr

/-- The kind of a handler by its name and the signals of the base. -/
def handlerKind (base : Option Component) (name : List Char) : Except Error HandlerKind := do
  let signal := String.ofList (handledName name)
  if Text.endsWith "Changed".toList name then
    return if (← signalsOf base).contains signal then .signal else .changed
  else if Text.endsWith "Pressed".toList name && 9 < name.length then
    return if (← signalsOf base).contains signal then .signal else .key
  else return .signal

namespace HandlerKind

def entryName : HandlerKind → List Char → List Char
  | .key, handled => keyName handled
  | .changed, handled => dropEnding handled
  | .signal, handled => handled

def args : HandlerKind → List String → List String
  | .key, _ => ["key", "event"]
  | .changed, _ => ["value"]
  | .signal, declared => declared

def duplicate : HandlerKind → String → Error
  | .key, name => .duplicateKeyHandler name
  | _, name => .duplicateSignalHandler name

def table : HandlerKind → Handlers → Table MethodKey Method
  | .key, handlers => handlers.key
  | .changed, handlers => handlers.changed
  | .signal, handlers => handlers.signal

def put (key : MethodKey) (entry : Method) (handlers : Handlers) : HandlerKind → Handlers
  | .key => { handlers with key := handlers.key.insert key entry }
  | .changed => { handlers with changed := handlers.changed.insert key entry }
  | .signal => { handlers with signal := handlers.signal.insert key entry }

end HandlerKind

/-- Put a handler into its table; none has the place of another. -/
def addHandler (c : Component) (base : Option Component) (path name : String)
    (method : DeclaredMethod) : Except Error Component := do
  let handlers := c.handlers.getD {}
  let kind ← handlerKind base name.toList
  let key := (path, String.ofList (kind.entryName (handledName name.toList)))
  if (kind.table handlers).contains key then throw (kind.duplicate name)
  let entry : Method := { args := kind.args method.args, code := method.code, async := false }
  return { c with handlers := some (kind.put key entry handlers) }

/-- Put a declared method or handler into its table. -/
def sortMethod (c : Component) (base : Option Component) (key : MethodKey) :
    MethodEntry → Except Error Component
  | .prepared _ => .error .alreadyPrepared
  | .declared method => do
    let (path, name) := key
    if method.event && isHandlerName name.toList then addHandler c base path name method
    else
      if c.methods.contains key then throw (.duplicateMethod name)
      let key := if name = "onCompleted" then (path, "__complete") else key
      let entry : Method := { args := method.args, code := method.code, async := method.async }
      return { c with methods := c.methods.insert key (.prepared entry) }

/-- Sort methods up to the first that is refused. -/
def sortMethods (c : Component) (base : Option Component) :
    List (MethodKey × MethodEntry) → Component × Option Error
  | [] => (c, none)
  | (key, entry) :: entries =>
    match sortMethod c base key entry with
    | .ok c => sortMethods c base entries
    | .error e => (c, some e)

/-- The base of a component, unless that is the root of all types. -/
def baseComponent (c : Component) : Work (Option Component) := do
  let base ← find c.package c.base false {}
  if base = root then return none else return some (← component base)

mutual

/-- Prepare a component and its parts; what was done before a refusal stays. -/
def prepareComponent : Component → Registry → (Component × Option Error) × Registry
  | c@{ parts, .. }, registry =>
    let registry := { registry with ids := c.ids.foldl NameSet.add registry.ids }
    match prepareParts parts registry with
    | ((parts, some e), registry) => (({ c with parts }, some e), registry)
    | ((parts, none), registry) =>
      let cleared := { c with parts, methods := {}, handlers := some {} }
      match run (baseComponent c) registry with
      | (.error e, registry) => ((cleared, some e), registry)
      | (.ok base, registry) => (sortMethods cleared base c.methods.entries, registry)

def prepareParts : List Component → Registry → (List Component × Option Error) × Registry
  | [], registry => (([], none), registry)
  | part :: parts, registry =>
    match prepareComponent part registry with
    | ((part, some e), registry) => ((part :: parts, some e), registry)
    | ((part, none), registry) =>
      match prepareParts parts registry with
      | ((parts, e), registry) => ((part :: parts, e), registry)

end

/-- Put in the values of choices whose types are found. -/
def resolveChoices (c : Component) (text : String) : Work String :=
  Script.replaceChoices (fun type => do
    try return some (← find c.package type true {})
    catch _ => return none) text

/-- Look up the identifiers of a code, and resolve its choices. -/
def processCode (c : Component) (args : List String) (code : String) : Work String := do
  let ids := Script.usedIds (← get).ids args code
  let code ←
    if ids.isEmpty then pure code
    else
      match Script.behindBrace? (Script.lookUps ids) code with
      | some code => pure code
      | none => throw .noBrace
  resolveChoices c code

/-- The body of a function on completion: the base is completed first. -/
def completionCode (code : String) : Except Error String :=
  match Text.trim code.toList with
  | [] => .error .emptyValue
  | s =>
    if s.head? = some '\x7b' && s.getLast? = some '\x7d' then
      .ok ("\x7b @super.__complete.call(this)\n" ++
        String.ofList (Text.trim ((s.drop 1).dropLast)) ++ "\n\x7d")
    else .ok (String.ofList s)

/-- The function of a method. -/
def functionText (c : Component) (name : String) (method : Method) : Work String := do
  let code ← if name = "__complete" then check (completionCode method.code) else pure method.code
  let code ← processCode c method.args code
  return (if method.async then "async " else "") ++ "function(" ++ ",".intercalate method.args ++
    ") " ++ code

/-- The functions of a table, each with all keys that share it. -/
def functions (c : Component) (methods : Table MethodKey Method) :
    Work (List (String × List MethodKey)) := do
  let table ← methods.entries.foldlM
    (fun (table : Table String (List MethodKey)) (key, method) => do
      let text ← functionText c key.2 method
      return table.insert text ((table.get? text).getD [] ++ [key])) {}
  return sortBy (fun a b => textLt a.1 b.1) table.entries

/-- The methods of entries that are all prepared. -/
def preparedMethods : List (MethodKey × MethodEntry) → Except Error (List (MethodKey × Method))
  | [] => .ok []
  | (key, .prepared method) :: entries => do return (key, method) :: (← preparedMethods entries)
  | (_, .declared _) :: _ => .error .unpreparedMethods

end QmlScript.Registry
