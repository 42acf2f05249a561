import QmlScript.Table
import QmlScript.Text.CharClass
import QmlScript.Text.Scan

/-!
# Catalogs of localized texts

A source asks for a localized text by a call such as `qsTr("text")`. A catalog holds the messages of a program for
one language, grouped by contexts. The status of a wording says whether it still needs work, and whether the program
asks for it: what was read without a status counts as stale until a scan finds it.
-/

namespace QmlScript.Localization

/-! ## Requests: the text stands between the first quote and the last such quote without a backslash -/

structure Request where
  function : String
  source : String
  /-- Where the text starts in the arguments of the call: they start with it. -/
  position : Nat := 0
  deriving DecidableEq, Repr

def functions : List String := ["qsTr", "qsTranslate", "tr", "QT_TR_NOOP", "QT_TRANSLATE_NOOP"]

def behindClose? (s : List Char) : Option (List Char) :=
  match Text.dropBlank s with
  | ')' :: rest => some rest
  | _ => none

/-- The arguments up to the first closing parenthesis, without blanks before it, and what follows. -/
def arguments? : List Char → Option (List Char × List Char)
  | [] => none
  | c :: s =>
    match behindClose? (c :: s) with
    | some rest => some ([], rest)
    | none => if c = '\n' then none else (arguments? s).map fun (args, rest) => (c :: args, rest)

def callArguments? (s : List Char) : Option (List Char × List Char) :=
  match Text.dropBlank s with
  | '(' :: s => arguments? (Text.dropBlank s)
  | _ => none

/-- The text up to the last quote without a backslash before it; `before` is the character in front. -/
def upToLastQuote? (quote : Char) : (before : Char) → List Char → Option (List Char)
  | _, [] => none
  | before, c :: s =>
    match upToLastQuote? quote c s with
    | some text => some (c :: text)
    | none => if c = quote && before ≠ '\\' then some [] else none

def firstText? : List Char → Option (List Char)
  | '"' :: s => upToLastQuote? '"' '"' s
  | '\'' :: s => upToLastQuote? '\'' '\'' s
  | _ => none

/-- A call of one of the functions, behind a character of no word: the name and the arguments. -/
def call? : Text.Recogniser (String × List Char) := fun s =>
  match s with
  | [] => none
  | c :: rest =>
    if Text.isWordChar c then none
    else
      functions.findSome? fun name => do
        let (args, behind) ← callArguments? (← Text.after? name.toList rest)
        some ((name, args), s.length - behind.length)

def requests (text : String) : List Request :=
  (Text.findAll call? text.toList).filterMap fun (function, args) =>
    (firstText? args).map fun source => { function, source := String.ofList source }

/-- The line of a location: counted in a text, or as a document gives it. -/
inductive Line where
  | counted (n : Nat)
  | given (text : String)
  deriving DecidableEq, Repr

def Line.text : Line → String
  | .counted n => toString n
  | .given text => text

structure Location where
  fileName : String
  line : Line
  deriving DecidableEq, Repr

def unfinished : String := "unfinished"

def obsolete : String := "obsoleted"

/-- The status of a wording without one, until it is asked for. -/
def stale : String := "just-obsoleted"

structure Wording where
  /-- The status; `none` for a wording that is in use. -/
  status : Option String := some unfinished
  text : Option String := none
  deriving DecidableEq, Repr

structure Message where
  location : Option Location := none
  source : String
  wording : Wording := {}
  deriving DecidableEq, Repr

structure Context where
  name : String
  messages : Table String Message := {}
  deriving DecidableEq

structure Catalog where
  path : String := ""
  language : Option String := none
  version : Option String := none
  contexts : Table String Context := {}
  deriving DecidableEq

def Wording.use (w : Wording) : Wording :=
  if w.status = some obsolete || w.status = some stale then { w with status := none } else w

/-- Ask for a message at a location; a known message keeps its own. -/
def Context.add (c : Context) (source : String) (location : Location) : Context :=
  match c.messages.get? source with
  | some m => { c with messages := c.messages.insert source { m with wording := m.wording.use } }
  | none => { c with messages := c.messages.insert source { location := some location, source } }

def Catalog.add (catalog : Catalog) (context source : String) (location : Location) : Catalog :=
  let c := (catalog.contexts.get? context).getD { name := context }
  { catalog with contexts := catalog.contexts.insert context (c.add source location) }

def lineAt (text : String) (offset : Nat) : Nat := (text.toList.take offset).count '\n' + 1

def Catalog.addText (catalog : Catalog) (context path text : String) : Catalog :=
  (requests text).foldl (fun catalog request =>
    catalog.add context request.source ⟨path, .counted (lineAt text request.position)⟩) catalog

/-- How two texts compare, one of them may be missing: equality, and the order if both are there. -/
def compareNames (a b : Option String) : Bool × Option Ordering :=
  (a = b, do return compare (← a) (← b))

end QmlScript.Localization
