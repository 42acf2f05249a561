import QmlScript.Documentation
import QmlScript.Error
import QmlScript.Grammar.Source
import QmlScript.Localization.Document
import QmlScript.Manifest

/-!
# What can go wrong with programs

The causes for which a program cannot be compiled or built, and their wording. Values of settings may
be of any kind; what is done with one may need another kind.
-/

namespace QmlScript

inductive KindError where
  | notHashable (kind : String)
  | notIterable (kind : String)
  | notSearchable (kind : String)
  | notInText (kind : String)
  | notAppendable (whole kind : String)
  | notJoinable (index : Nat) (kind : String)
  | notOperand (operation left right : String)
  | notPath (kind : String)
  | notName (kind : String)
  | notSubscriptable (kind : String)
  deriving DecidableEq, Repr

def KindError.message : KindError → String
  | .notHashable kind => s!"unhashable type: '{kind}'"
  | .notIterable kind => s!"'{kind}' object is not iterable"
  | .notSearchable kind => s!"argument of type '{kind}' is not iterable"
  | .notInText kind => s!"'in <string>' requires string as left operand, not {kind}"
  | .notAppendable whole kind => s!"can only concatenate {whole} (not \"{kind}\") to {whole}"
  | .notJoinable index kind => s!"sequence item {index}: expected str instance, {kind} found"
  | .notOperand operation left right =>
    s!"unsupported operand type(s) for {operation}: '{left}' and '{right}'"
  | .notPath kind => s!"join() argument must be str, bytes, or os.PathLike object, not '{kind}'"
  | .notName kind => s!"expected str, bytes or os.PathLike object, not {kind}"
  | .notSubscriptable kind =>
    if kind = "str" then "string indices must be integers, not 'str'"
    else if kind = "list" then "list indices must be integers or slices, not str"
    else s!"'{kind}' object is not subscriptable"

inductive BuildError where
  | component (cause : Error)
  | file (cause : FileError)
  | source (path text : String) (cause : Grammar.ParseError)
  | notKept (path : String) (cause : FileError)
  | setting (cause : SettingError)
  | json (text : String) (fault : Json.Fault)
  | kind (cause : KindError)
  | catalog (cause : Localization.CatalogError)
  | noPlace
  | documentation (cause : Documentation.WriteError)
  | unknownPartner
  | noWorkers
  | number (fault : Number.Fault)
  | noApplications
  | unknownPlatform (name : String)
  | notStandalone (name : String)
  | endlessPlatforms
  | unknownTemplater (shown : String)
  | noTemplater
  | noProperty (name : String)
  | notWatching

instance : Coe FileError BuildError := ⟨.file⟩

def placeText (text : List Char) (offset : Nat) : String :=
  let line := Grammar.lineOf text offset
  let column := Grammar.columnOf text offset
  s!"  (at char {offset}), (line:{line}, col:{column})"

def toldRuns : List Nat := Text.runsOf [
  "GobhcbbdcfxbBfbNgLcfbccebbgbbdbbbubClogbFjiGkIVojGbgBybbbffnbPbwcgcBmcgcibbbbbbbBfcCbbhbbddbhdecgenfdbhBYVzBvqBf",
  "BVbb"]

def isToldChar (c : Char) : Bool :=
  if c.toNat < 128 then c.isAlphanum else Text.inRuns toldRuns c.toNat

/-- What an error says about a place: the word or the character there. -/
def foundText (text : List Char) (offset : Nat) : String :=
  if text.isEmpty then ""
  else
    let rest := text.drop offset
    let word := (rest.take 16).takeWhile isToldChar
    match rest with
    | [] => ", found end of text"
    | c :: _ =>
      let found := quotedText (String.ofList (if word.isEmpty then [c] else word))
      ", found " ++ replaceText "\\\\" "\\" found

def lackText : Grammar.Lack → String
  | .mark text => s!"Expected '{text}'"
  | .keyword word runsOn =>
    s!"Expected Keyword '{word}'" ++
      if runsOn then ", was immediately followed by keyword character" else ""
  | .name first rest => s!"Expected W:({first}, {rest})"
  | .block => "Expected nested \x7b\x7d expression"
  | .expression => "Expected ?: term"
  | .typeName => "exception raised in parse action"
  | .capital => "lowercase component name"
  | .ending => "Expected end of text"
  | .anything => ""

/-- The text that an error is about; one about a type without a name does not know it. -/
def textBehind (text : String) : Grammar.Lack → List Char
  | .typeName => []
  | _ => text.toList

def lackMessage (text : String) (offset : Nat) (lack : Grammar.Lack) : String :=
  let text := textBehind text lack
  lackText lack ++ foundText text offset ++ placeText text offset

def parseMessage (text : String) : Grammar.ParseError → String
  | .number fault => fault.message
  | .incomplete offset lack => lackMessage text offset lack
  | .mismatch offset lack => lackMessage text offset lack

def BuildError.message : BuildError → String
  | .component (.missing name) => quotedText name
  | .component cause => cause.message
  | .file cause => cause.message
  | .source _ text cause => parseMessage text cause
  | .notKept _ cause => cause.message
  | .setting cause => cause.message
  | .json text fault => fault.message text
  | .kind cause => cause.message
  | .catalog (.noAttribute name) => quotedText name
  | .catalog cause => cause.message
  | .noPlace => "'ParseError' object has no attribute 'col'"
  | .documentation (.file cause) => cause.message
  | .documentation .noDeclarations => "'Component' object has no attribute 'children'"
  | .unknownPartner => "name 'parser' is not defined"
  | .noWorkers => "Number of processes must be at least 1"
  | .number fault => fault.message
  | .noApplications =>
    "No application files found. Application file named in lowercase and has .qml extension"
  | .unknownPlatform name => s!"no platform '{name}' found"
  | .notStandalone name => s!"{name} is not a standalone platform"
  | .endlessPlatforms => ""
  | .unknownTemplater shown => s!"unknown templater: {shown}"
  | .noTemplater => "No module named 'jinja2'"
  | .noProperty name => quotedText name
  | .notWatching =>
    "it seems you don't have pyinotify module installed, please install it to run build with -d option"

def BuildError.path? : BuildError → Option String
  | .file cause => some cause.path
  | .source path _ _ => some path
  | .notKept path _ => some path
  | .catalog (.file cause) => some cause.path
  | .documentation (.file cause) => some cause.path
  | _ => none

def lineText (text : List Char) (offset : Nat) : String :=
  String.ofList <| ((text.take offset).reverse.takeWhile (· ≠ '\n')).reverse ++
    (text.drop offset).takeWhile (· ≠ '\n')

/-- The lines that report an error: the place if it is known, the wording, and the line that went wrong. -/
def BuildError.report (e : BuildError) : String :=
  let located (path text : String) (offset : Nat) (lack : Grammar.Lack) : String :=
    let text := textBehind text lack
    let line := Grammar.lineOf text offset
    let column := Grammar.columnOf text offset
    s!"{path}:{line}:{column}: error: " ++ e.message ++ "\n" ++ lineText text offset
  match e with
  | .source path text (.mismatch offset lack) => located path text offset lack
  | .source path text (.incomplete offset lack) => located path text offset lack
  | e =>
    match e.path? with
    | some path => path ++ ": error: " ++ e.message
    | none => "error: " ++ e.message

end QmlScript
