import QmlScript.Json.Writer
import QmlScript.Text.Scan

/-!
# Values of properties

A value is *trivial* if it means the same wherever it stands: a truth value, null, a number, a plain
string literal or a reference to the manifest. Trivial values are given to a property where it is
declared, all others where its object is set up.
-/

namespace QmlScript.Script

inductive ValueError where
  | empty
  deriving DecidableEq, Repr

def valueText : Json → String
  | .bool b => if b then "true" else "false"
  | v => v.display

def isManifestReference (s : List Char) : Bool :=
  match Text.after? "$\x7bmanifest.".toList s with
  | none => false
  | some rest =>
    let path := rest.takeWhile fun c => c.isAlphanum || c = '$' || c = '.'
    !path.isEmpty && rest.drop path.length == ['\x7d']

def dropParentheses (s : List Char) : List Char :=
  if s.head? = some '(' && s.getLast? = some ')' then (s.drop 1).dropLast else s

/-- A string literal with double quotes, inner ones behind backslashes. -/
def isPlainLiteral (s : List Char) : Bool :=
  s.head? = some '"' && s.getLast? = some '"' &&
    s.count '"' == Text.count ['\\', '"'] s + 2

def isTrivialText (text : String) : Except ValueError Bool :=
  match text.toList with
  | [] => .error .empty
  | s =>
    let s := dropParentheses s
    let text := String.ofList s
    if text = "true" || text = "false" || text = "null" then .ok true
    else if isManifestReference s then .ok true
    else if (Number.readDouble? s).isSome then .ok true
    else if s.isEmpty then .error .empty
    else .ok (isPlainLiteral s)

/-- Whether a value is trivial: truth values are, others only as texts. -/
def isTrivial : Json → Except ValueError Bool
  | .bool _ => .ok true
  | .str text => isTrivialText text
  | _ => .ok false

end QmlScript.Script
