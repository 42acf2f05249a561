import QmlScript.Number.Reader

/-!
# What can go wrong with components

The causes for which a component cannot be built, found, prepared or generated, and their wording.
-/

namespace QmlScript

inductive Error where
  | duplicateProperty (owner name : String)
  | duplicateName (name : String)
  | lazyWithoutComponent
  | lazyNotAlone (name : String)
  | constNotAlone (name : String)
  | expressionForId
  | doubleAssignment (target owner base : String)
  | duplicateAnimation (target : String)
  | duplicateConstructor
  | prototypeCodeInPart
  | duplicateMethod (name : String)
  | duplicateSignal (name : String)
  | duplicateConstant (name : String)
  | unhandled (shown : String)
  | wrongKind
  | emptyValue
  | notText
  | duplicateComponent (name : String)
  | duplicateScript (name : String)
  | notFound (name : String)
  | ambiguous (name : String) (packages : List String)
  | missing (name : String)
  | endlessBases
  | emptyName
  | notPrepared
  | alreadyPrepared
  | unpreparedMethods
  | duplicateKeyHandler (name : String)
  | duplicateSignalHandler (name : String)
  /-- The base of a component is the root of all types, which has no declarations. -/
  | rootHasNoSignals
  | notAType
  | qualifiedMethod (path name owner : String)
  /-- A value that is given to a property at once depends on others. -/
  | dependentDefault (dependencies : List (String × String)) (value : String)
  | unknownProperty (name owner base : String)
  | choiceInPart (name : String)
  | constantInPart (name : String)
  | idIsExpression
  | remoteId
  | skipped (target shown : String)
  | noBrace
  | emptyPackage
  | number (fault : Number.Fault)
  | badEscape
  | unknownGroup
  deriving Repr

def showDependencies (deps : List (String × String)) : String :=
  "\x7b" ++ ", ".intercalate (deps.map fun (object, name) =>
    "(" ++ quotedText object ++ ", " ++ quotedText name ++ ")") ++ "\x7d"

def Error.message : Error → String
  | .duplicateProperty owner name => s!"duplicate property {owner}.{name}"
  | .duplicateName name => s!"duplicate property {name}"
  | .lazyWithoutComponent => "lazy property must be declared with component as value"
  | .lazyNotAlone name => s!"property {name} is lazy, hence should be declared alone"
  | .constNotAlone name => s!"property {name} is const, hence should be declared alone"
  | .expressionForId => "assigning non-id for id"
  | .doubleAssignment target owner base => s!"double assignment to '{target}' in {owner} of type {base}"
  | .duplicateAnimation target => s!"duplicate animation on property {target}"
  | .duplicateConstructor => "duplicate constructor"
  | .prototypeCodeInPart => "prototypeConstructor can be used only in prototypes"
  | .duplicateMethod name => s!"duplicate method {name}"
  | .duplicateSignal name => s!"duplicate signal {name}"
  | .duplicateConstant name => s!"duplicate static property {name}"
  | .unhandled shown => s!"unhandled element: {shown}"
  | .duplicateComponent name => s!"duplicate component {name}"
  | .duplicateScript name => s!"duplicate js name {name}"
  | .notFound name => s!"component {name} was not found"
  | .ambiguous name packages =>
    s!"ambiguous component {name}, you have to specify one of the packages explicitly: " ++
      " ".intercalate (packages.map fun package => package ++ "." ++ name)
  | .missing name => name
  | .alreadyPrepared => "not enough values to unpack (expected 4, got 3)"
  | .unpreparedMethods => "too many values to unpack (expected 3)"
  | .duplicateKeyHandler name => s!"duplicate key handler {name}"
  | .duplicateSignalHandler name => s!"duplicate signal handler {name}"
  | .qualifiedMethod path name owner =>
    s!"no <id> qualifiers ({path}) allowed in prototypes {name} ({owner})"
  | .dependentDefault deps value =>
    "trivial value emits dependencies " ++ showDependencies deps ++ s!" (default: {value})"
  | .unknownProperty name owner base => s!"unknown property {name} in {owner} ({base})"
  | .choiceInPart name =>
    "adding enums without prototype is not supported, consider putting this property (" ++ name ++
      ") in prototype"
  | .constantInPart name =>
    "adding consts without prototype is not unsupported, consider putting this property (" ++ name ++
      ") in prototype"
  | .idIsExpression => "expected identifier, not expression"
  | .remoteId => "setting id of the remote object is prohibited"
  | .skipped target shown => s!"skip assignment {target} = {shown}"
  | .noBrace => "substring not found"
  | .emptyPackage => "internal bug, empty name in packages"
  | .number fault => fault.message
  | .wrongKind => ""
  | .emptyValue => ""
  | .notText => ""
  | .endlessBases => ""
  | .emptyName => ""
  | .notPrepared => ""
  | .rootHasNoSignals => ""
  | .notAType => ""
  | .badEscape => ""
  | .unknownGroup => ""

end QmlScript
