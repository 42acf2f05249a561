import QmlScript.FileTree
import QmlScript.Json.Writer
import QmlScript.Text.LetterCase

/-!
# Gamepad mappings

A database of game controllers has a line for each device: its identifier, its name, and items such as
`leftx:a0`. Lines with a hash name the platform of those behind them. The mappings are written as one JSON
object, by vendor and product.
-/

namespace QmlScript.Gamepad

inductive ConvertError where
  | file (cause : FileError)
  | number (fault : Number.Fault)
  | unknownInput (letter : String)
  | outOfRange
  deriving Repr

instance : Coe FileError ConvertError := ⟨.file⟩

def buttonCount : Nat := 45

def axisCount : Nat := 13

def meaning (name : String) : String :=
  match name with
  | "dpup" => "up"
  | "dpright" => "right"
  | "dpleft" => "left"
  | "dpdown" => "down"
  | "lefty" => "leftStickY"
  | "righty" => "rightStickY"
  | "leftx" => "leftStickX"
  | "rightx" => "rightStickX"
  | "righttrigger" => "rightTrigger"
  | "leftshoulder" => "leftBumper"
  | "rightshoulder" => "rightBumper"
  | "rightstick" => "rightStick"
  | "lefttrigger" => "leftTrigger"
  | "leftstick" => "leftStick"
  | name => name

/-- The bytes of each pair swapped; a byte is two characters, and an unpaired rest is dropped. -/
def swapBytes : List Char → List Char
  | a :: b :: c :: d :: s => c :: d :: a :: b :: swapBytes s
  | _ => []

/-- Half of the identifier of a device as a number: the first two bytes, or on Linux the fifth and the sixth. -/
def identifierPart (isLinux : Bool) (digits : List Char) : Except ConvertError String := do
  let bytes := swapBytes digits
  let number := (if isLinux then bytes.drop 8 else bytes).take 4
  return toString (← (Number.readInt 16 (String.ofList number)).mapError .number)

/-- The inputs of one kind: their meanings, and the greatest index set. -/
structure Inputs where
  meanings : List (Option String)
  greatest : Int := 0

def Inputs.blank (count : Nat) : Inputs := { meanings := List.replicate count none }

/-- Set the meaning of an input; negative indexes count from the end. -/
def Inputs.set (inputs : Inputs) (index : Int) (name : String) : Except ConvertError Inputs :=
  let count := inputs.meanings.length
  let position := if index < 0 then index + count else index
  if 0 ≤ position && position < count then
    .ok { meanings := inputs.meanings.set position.toNat (some name)
          greatest := if inputs.greatest < index then index else inputs.greatest }
  else .error .outOfRange

/-- The inputs up to the greatest index; there are none if that is zero. -/
def Inputs.value (inputs : Inputs) : Json :=
  if 0 < inputs.greatest then
    .arr ((inputs.meanings.take (inputs.greatest.toNat + 1)).map fun
      | some name => .str name
      | none => .int 0)
  else .arr []

structure Mapping where
  buttons : Inputs := .blank buttonCount
  axes : Inputs := .blank axisCount

/-- Add an item of a line. Items without a name or an input, for the platform or for a hat are passed over. -/
def Mapping.add (mapping : Mapping) (item : String) : Except ConvertError Mapping :=
  match splitText ':' item with
  | name :: input :: _ =>
    match input.toList with
    | [] => .ok mapping
    | letter :: digits =>
      if name = "" || name = "platform" || letter = 'h' then .ok mapping
      else do
        let index ← (Number.readInt 10 (String.ofList digits)).mapError .number
        if letter = 'b' then
          return { mapping with buttons := ← mapping.buttons.set index (meaning name) }
        else if letter = 'a' then
          return { mapping with axes := ← mapping.axes.set index (meaning name) }
        else throw (.unknownInput (String.singleton letter))
  | _ => .ok mapping

structure Device where
  key : String
  name : String
  mapping : Mapping

def device (isLinux : Bool) (identifier name : String) (items : List String) :
    Except ConvertError Device := do
  let digits := identifier.toList
  let vendor ← identifierPart isLinux (digits.take 16)
  let product ← identifierPart isLinux ((digits.drop 16).take 16)
  return { key := vendor ++ ":" ++ product, name, mapping := ← items.foldlM Mapping.add {} }

def Device.value (device : Device) : Json :=
  .obj [("name", .str device.name),
    ("mapping", .obj [("button", device.mapping.buttons.value), ("axes", device.mapping.axes.value)])]

inductive Line where
  | platform (name : String)
  | device (identifier name : String) (items : List String)
  | nothing

def Line.read (text : List Char) : Line :=
  let text := Text.trimBy (fun c => c = ' ' || c = '\t' || c = '\r' || c = '\n') text
  match text with
  | [] => .nothing
  | '#' :: rest => .platform (String.ofList (rest.drop 1))
  | text =>
    match splitText ',' (String.ofList text) with
    | identifier :: name :: items => .device identifier name (identifier :: name :: items)
    | _ => .nothing

def isLinux (platform : String) : Bool := platform.toList.flatMap Text.small = "linux".toList

/-- Convert the lines of a database. The file of the mappings is written again behind each device. -/
def convertLines (target : String) : (platform : String) → (devices : List (String × Json)) →
    List (List Char) → FileWork ConvertError Unit
  | _, _, [] => return
  | platform, devices, line :: lines =>
    match Line.read line with
    | .nothing => convertLines target platform devices lines
    | .platform name => convertLines target name devices lines
    | .device identifier name items =>
      match device (isLinux platform) identifier name items with
      | .error e => throw e
      | .ok d => do
        let devices := Json.setField d.key d.value devices
        FileWork.write target (Json.sortKeys (.obj devices)).text
        convertLines target platform devices lines

def convert (source target : String) : FileWork ConvertError Unit := do
  let text ← FileWork.look fun tree => tree.read source
  convertLines target "" [] (Text.splitOn '\n' text.toList)

end QmlScript.Gamepad
