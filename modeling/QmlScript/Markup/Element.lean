import QmlScript.Text.Scan

/-!
# Markup documents

A document is an element: a name, attributes in the order of the text, the text in front of the first
element inside, and these elements. Text between or behind inner elements is not kept.
-/

namespace QmlScript.Markup

structure Element where
  /-- The name, behind the address of its vocabulary in braces if it has one. -/
  name : String
  attributes : List (String × String) := []
  /-- The text in front of the first inner element; `none` if it is empty. -/
  text : Option String := none
  children : List Element := []
  deriving Inhabited

namespace Element

def attribute? (e : Element) (name : String) : Option String :=
  (e.attributes.find? fun (n, _) => n = name).map (·.2)

end Element

/-- Whether a document may hold the character: no control but the tab and line ends, and no code point that is never
assigned in the first plane. -/
def isLegal (c : Char) : Bool :=
  c = '\t' || c = '\n' || c = '\r' || (32 ≤ c.toNat && c.toNat ≠ 0xfffe && c.toNat ≠ 0xffff)

/-! ## Writing: an element with nothing but text is written on one line -/

def escapeChar (c : Char) : List Char :=
  if c = '&' then "&amp;".toList
  else if c = '<' then "&lt;".toList
  else if c = '>' then "&gt;".toList
  else if c = '"' then "&quot;".toList
  else [c]

def escape (s : List Char) : String := String.ofList (s.flatMap escapeChar)

def attributesText (attributes : List (String × String)) : String :=
  String.join (attributes.map fun (name, value) => " " ++ name ++ "=\"" ++ escape value.toList ++ "\"")

def indent (depth : Nat) : String := String.ofList (List.replicate (2 * depth) ' ')

mutual

def elementText (depth : Nat) : Element → String
  | { name, attributes, text, children } =>
    let start := indent depth ++ "<" ++ name ++ attributesText attributes
    match text, children with
    | none, [] => start ++ "/>\n"
    | some "", [] => start ++ "/>\n"
    | some text, [] => start ++ ">" ++ escape (Text.unifyBreaks text.toList) ++ "</" ++ name ++ ">\n"
    | _, children =>
      start ++ ">\n" ++ elementTexts (depth + 1) children ++ indent depth ++ "</" ++ name ++ ">\n"

def elementTexts (depth : Nat) : List Element → String
  | [] => ""
  | e :: es => elementText depth e ++ elementTexts depth es

end

mutual

def Element.isLegal : Element → Bool
  | { name := _, attributes, text, children } =>
    (attributes.all fun (_, value) => value.toList.all Markup.isLegal) &&
      (text.getD "").toList.all Markup.isLegal && areLegal children

def Element.areLegal : List Element → Bool
  | [] => true
  | e :: es => e.isLegal && areLegal es

end

/-- The text of a document; `none` if a character cannot be written. -/
def write? (e : Element) : Option String :=
  if e.isLegal then some ("<?xml version=\"1.0\" ?>\n" ++ elementText 0 e) else none

end QmlScript.Markup
