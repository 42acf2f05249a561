import QmlScript.Number.Double

/-!
# JSON values

Whole numbers and floating point numbers are told apart, as they are in the text. An object is the
list of its fields in the order in which they were first set; a key stands in it once.
-/

namespace QmlScript

inductive Json where
  | null
  | bool (value : Bool)
  | int (value : Int)
  | double (value : Double)
  | str (value : String)
  | arr (items : List Json)
  | obj (fields : List (String × Json))
  deriving Repr, Inhabited

namespace Json

def setField (key : String) (value : Json) : List (String × Json) → List (String × Json)
  | [] => [(key, value)]
  | (k, v) :: fields => if k = key then (k, value) :: fields else (k, v) :: setField key value fields

def field? (key : String) : List (String × Json) → Option Json
  | [] => none
  | (k, v) :: fields => if k = key then some v else field? key fields

/-- The object with the given fields; the last one with a key counts. -/
def ofPairs (pairs : List (String × Json)) : Json :=
  .obj (pairs.foldl (fun fields (k, v) => setField k v fields) [])

def get? (key : String) : Json → Option Json
  | .obj fields => field? key fields
  | _ => none

def kind : Json → String
  | .null => "NoneType"
  | .bool _ => "bool"
  | .int _ => "int"
  | .double _ => "float"
  | .str _ => "str"
  | .arr _ => "list"
  | .obj _ => "dict"

/-- Whether the value counts as true: not null, false, zero or empty. -/
def isTruthy : Json → Bool
  | .null => false
  | .bool b => b
  | .int n => n ≠ 0
  | .double x => !x.isZero
  | .str s => s ≠ ""
  | .arr items => !items.isEmpty
  | .obj fields => !fields.isEmpty

end Json
end QmlScript
