import QmlScript.Json.Value

/-!
# Declaration trees

A `Node δ` is a declaration with documentation of type `δ`: a number at first, and the text of its
documentation in the finished tree. Where an expression stands in the source, the tree has its generated text
as a plain value.
-/

namespace QmlScript

/-- A declaration with documentation of a type, or a plain value. -/
inductive Node (δ : Type) where
  | component (doc : δ) (type : String) (body : List (Node δ))
  /-- Properties of one type, each with its initial value or null. -/
  | property (doc : δ) (type : String) (items : List (String × Node δ))
  | const (doc : δ) (type name : String) (value : Json)
  | alias (doc : δ) (name target : String)
  | choice (doc : δ) (name : String) (values : List String) (default : Option String)
  /-- A function, or a handler if `event` is set, under one or several names. -/
  | method (doc : δ) (names args : List String) (code : String) (event async : Bool)
  | identifier (doc : δ) (name : String)
  | assignment (doc : δ) (target : String) (value : Node δ)
  | scope (doc : δ) (target : String) (values : List (Node δ))
  | behavior (doc : δ) (targets : List String) (animation : Node δ)
  | signal (doc : δ) (name : String)
  | row (data : Json)
  | plain (value : Json)

namespace Node

variable {δ ε : Type}

def text (s : String) : Node δ := .plain (.str s)

def absent : Node δ := .plain .null

instance : Inhabited (Node δ) := ⟨absent⟩

mutual

def mapDoc (f : δ → ε) : Node δ → Node ε
  | .component doc type body => .component (f doc) type (mapDocs f body)
  | .property doc type items => .property (f doc) type (mapItems f items)
  | .const doc type name value => .const (f doc) type name value
  | .alias doc name target => .alias (f doc) name target
  | .choice doc name values default => .choice (f doc) name values default
  | .method doc names args code event async => .method (f doc) names args code event async
  | .identifier doc name => .identifier (f doc) name
  | .assignment doc target value => .assignment (f doc) target (mapDoc f value)
  | .scope doc target values => .scope (f doc) target (mapDocs f values)
  | .behavior doc targets animation => .behavior (f doc) targets (mapDoc f animation)
  | .signal doc name => .signal (f doc) name
  | .row data => .row data
  | .plain value => .plain value

def mapDocs (f : δ → ε) : List (Node δ) → List (Node ε)
  | [] => []
  | node :: nodes => mapDoc f node :: mapDocs f nodes

def mapItems (f : δ → ε) : List (String × Node δ) → List (String × Node ε)
  | [] => []
  | (name, value) :: items => (name, mapDoc f value) :: mapItems f items

end

def setDoc (doc : δ) : Node δ → Node δ
  | .component _ type body => .component doc type body
  | node => node

end Node

/-- A finished tree with the documentation of its declarations. -/
abbrev Tree := Node (Option String)

end QmlScript
