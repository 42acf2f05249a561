import QmlScript.Text.CharClass
import QmlScript.Text.Scan

/-!
# Command lines

A word that starts with a hyphen names a switch, which may take words behind it; long names may be cut short,
and short names written together. All other words go to the places of the command. Behind the word of two
hyphens there are no switches.
-/

namespace QmlScript.CommandLine

inductive Arity where
  | none
  | one
  | two
  /-- One, unless another switch follows. -/
  | optional
  deriving DecidableEq, Repr

structure Switch where
  names : List String
  arity : Arity := .none
  words : String := ""
  help : String := ""
  deriving DecidableEq, Repr

inductive Count where
  | one
  | many
  | any
  deriving DecidableEq, Repr

structure Place where
  name : String
  count : Count := .one
  help : String := ""
  deriving DecidableEq, Repr

structure Form where
  title : String
  switches : List Switch
  places : List Place

inductive Refusal where
  | usage
  | help
  deriving DecidableEq, Repr

structure Choice where
  switch : Switch
  words : List String

structure Arguments where
  choices : List Choice
  places : List (List String)

def helpSwitch : Switch :=
  { names := ["-h", "--help"], help := "show this help message and exit" }

def Form.all (form : Form) : List Switch := helpSwitch :: form.switches

def Form.switch? (form : Form) (name : String) : Option Switch :=
  form.all.find? fun switch => switch.names.contains name

structure Attached where
  hasSign : Bool
  text : String

structure Named where
  switch : Switch
  name : String
  attached : Option Attached

inductive Mark where
  /-- A name of a switch; it may be unknown. -/
  | switch (named : Option Named)
  | word
  | separator

def isNegativeNumber (word : String) : Bool :=
  let isDigit (c : Char) : Bool := (Text.digitValue? c).isSome
  match word.toList with
  | '-' :: s =>
    match s.dropWhile isDigit with
    | [] => !s.isEmpty
    | '.' :: fraction => !fraction.isEmpty && fraction.all isDigit
    | _ => false
  | _ => false

/-- The switches that a cut name or several short names may mean. -/
def Form.meanings (form : Form) (word : String) : List Named :=
  let all : List (Switch × String) := form.all.flatMap fun switch => switch.names.map fun n => (switch, n)
  if startsWithText "--" word then
    let (front, attached) :=
      match cutFirstText? '=' word with
      | some (front, text) => (front, some { hasSign := true, text : Attached })
      | none => (word, none)
    all.filterMap fun (switch, name) =>
      if startsWithText front name then some { switch, name, attached } else none
  else
    let short := String.ofList (word.toList.take 2)
    let text := String.ofList (word.toList.drop 2)
    all.filterMap fun (switch, name) =>
      if name = short then some { switch, name, attached := some { hasSign := false, text } }
      else if startsWithText word name then some { switch, name, attached := none }
      else none

def Form.mark (form : Form) (word : String) : Except Refusal Mark :=
  if word = "" || word = "-" || !startsWithText "-" word then .ok .word
  else if word = "--" then .ok .separator
  else
    match form.switch? word with
    | some switch => .ok (.switch (some { switch, name := word, attached := none }))
    | none =>
      let spelled : Option Named := do
        let (name, text) ← cutFirstText? '=' word
        return { switch := ← form.switch? name, name, attached := some { hasSign := true, text } }
      match spelled with
      | some named => .ok (.switch (some named))
      | none =>
        match form.meanings word with
        | [named] => .ok (.switch (some named))
        | _ :: _ :: _ => .error .usage
        | [] =>
          if isNegativeNumber word || word.toList.contains ' ' then .ok .word
          else .ok (.switch none)

def Form.marks (form : Form) : List String → Except Refusal (List (String × Mark))
  | [] => .ok []
  | word :: words => do
    match ← form.mark word with
    | .separator => return (word, .separator) :: words.map fun word => (word, .word)
    | mark => return (word, mark) :: (← form.marks words)

def takeWords (arity : Arity) (rest : List (String × Mark)) :
    Except Refusal (List String × List (String × Mark)) :=
  match arity, rest with
  | .none, rest => .ok ([], rest)
  | .one, (word, .word) :: rest => .ok ([word], rest)
  | .two, (first, .word) :: (second, .word) :: rest => .ok ([first, second], rest)
  | .optional, (word, .word) :: rest => .ok ([word], rest)
  | .optional, rest => .ok ([], rest)
  | _, _ => .error .usage

/-- What comes of a switch: the switches chosen, whether something was left over, and the words behind. -/
structure Taken where
  choices : List Choice
  hasExtra : Bool
  rest : List (String × Mark)

/-- What a short name behind others means: its switch, and what is attached to it. -/
def Form.next? (form : Form) (letter : Char) (text : List Char) : Option Named := do
  let name := String.ofList ['-', letter]
  let switch ← form.switch? name
  let attached : Option Attached :=
    match text with
    | [] => none
    | '=' :: text => some { hasSign := true, text := String.ofList text }
    | text => some { hasSign := false, text := String.ofList text }
  return { switch, name, attached }

/-- Take a switch and those written together with it: `bound` is more than the length of what is attached. -/
def Form.take (form : Form) : (bound : Nat) → Named → List (String × Mark) → Except Refusal Taken
  | 0, _, _ => .error .usage
  | bound + 1, named, rest =>
    match named.attached with
    | none => do
      let (words, rest) ← takeWords named.switch.arity rest
      return { choices := [{ switch := named.switch, words }], hasExtra := false, rest }
    | some attached =>
      match named.switch.arity, attached.text.toList with
      | .one, _ =>
        .ok { choices := [{ switch := named.switch, words := [attached.text] }], hasExtra := false, rest }
      | .optional, _ =>
        .ok { choices := [{ switch := named.switch, words := [attached.text] }], hasExtra := false, rest }
      | .none, letter :: text =>
        if startsWithText "--" named.name || attached.hasSign || letter = '-' then .error .usage
        else
          let choice : Choice := { switch := named.switch, words := [] }
          match form.next? letter text with
          | none => .ok { choices := [choice], hasExtra := true, rest }
          | some next => do
            let taken ← form.take bound next rest
            return { taken with choices := choice :: taken.choices }
      | _, _ => .error .usage

def leadingWords (rest : List (String × Mark)) : List (String × Mark) :=
  rest.takeWhile fun
    | (_, .switch _) => false
    | _ => true

def separators (rest : List (String × Mark)) : Nat :=
  (rest.takeWhile fun
    | (_, .separator) => true
    | _ => false).length

def Place.count? (place : Place) (rest : List (String × Mark)) : Option Nat :=
  let leading := (leadingWords rest).length
  let before := separators rest
  match place.count with
  | .any => some leading
  | .many => if before < leading then some leading else none
  | .one =>
    if before < leading then some (before + 1 + separators (rest.drop (before + 1))) else none

def placeWords (words : List (String × Mark)) : List String := (words.map (·.1)).erase "--"

def fillPlaces : List Place → List (String × Mark) →
    List (List String) × List Place × List (String × Mark)
  | [], rest => ([], [], rest)
  | place :: places, rest =>
    match place.count? rest with
    | none => ([], place :: places, rest)
    | some n =>
      let (filled, places, left) := fillPlaces places (rest.drop n)
      (placeWords (rest.take n) :: filled, places, left)

structure Progress where
  choices : List Choice := []
  filled : List (List String) := []
  places : List Place
  hasExtra : Bool := false

def hasSwitch (rest : List (String × Mark)) : Bool :=
  rest.any fun
    | (_, .switch _) => true
    | _ => false

/-- Read the words up to the last switch, and the places behind it, less than `bound` words. -/
def Form.readFrom (form : Form) : (bound : Nat) → Progress → List (String × Mark) →
    Except Refusal Progress
  | 0, _, _ => .error .usage
  | bound + 1, progress, rest =>
    match rest with
    | (_, .switch none) :: rest => form.readFrom bound { progress with hasExtra := true } rest
    | (word, .switch (some named)) :: rest => do
      let taken ← form.take (word.length + 1) named rest
      if taken.choices.any fun choice => choice.switch = helpSwitch then throw .help
      let hasExtra := progress.hasExtra || taken.hasExtra
      form.readFrom bound { progress with choices := progress.choices ++ taken.choices, hasExtra }
        taken.rest
    | rest =>
      let (filled, places, left) := fillPlaces progress.places rest
      let progress := { progress with filled := progress.filled ++ filled, places }
      if !hasSwitch rest then .ok { progress with hasExtra := progress.hasExtra || !left.isEmpty }
      else if left.length < rest.length then form.readFrom bound progress left
      else
        let left := left.drop (leadingWords left).length
        form.readFrom bound { progress with hasExtra := true } left

def Form.read (form : Form) (words : List String) : Except Refusal Arguments := do
  let progress ← form.readFrom (words.length + 1) { places := form.places } (← form.marks words)
  if progress.hasExtra || progress.places.any (·.count ≠ .any) then throw .usage
  else return { choices := progress.choices, places := progress.filled }

namespace Arguments

def all (arguments : Arguments) (name : String) : List (List String) :=
  (arguments.choices.filter fun choice => choice.switch.names.contains name).map (·.words)

def has (arguments : Arguments) (name : String) : Bool := !(arguments.all name).isEmpty

def last? (arguments : Arguments) (name : String) : Option (List String) := (arguments.all name).getLast?

def word? (arguments : Arguments) (name : String) : Option String :=
  (arguments.last? name).bind List.head?

def place (arguments : Arguments) (i : Nat) : List String := arguments.places.getD i []

end Arguments

def helpWidth : Nat := 78

def helpColumn : Nat := 24

def fillFrom (width : Nat) (line : String) : List String → List String
  | [] => [line]
  | word :: words =>
    if width < line.length + 1 + word.length then line :: fillFrom width word words
    else fillFrom width (line ++ " " ++ word) words

def fill (width : Nat) : List String → List String
  | [] => []
  | word :: words => fillFrom width word words

def spaces (n : Nat) : String := String.ofList (List.replicate n ' ')

def Switch.spell (switch : Switch) (name : String) : String :=
  match switch.arity with
  | .none => name
  | .one => name ++ " " ++ switch.words
  | .two => name ++ " " ++ switch.words ++ " " ++ switch.words
  | .optional => name ++ " [" ++ switch.words ++ "]"

def Switch.usage (switch : Switch) : String := "[" ++ switch.spell (switch.names.headD "") ++ "]"

def Place.usage (place : Place) : List String :=
  match place.count with
  | .one => [place.name]
  | .many => [place.name, "[" ++ place.name ++ " ...]"]
  | .any => ["[" ++ place.name ++ " ...]"]

/-- How a command is used: on one line if it fits, or with lines for switches and places. -/
def Form.usage (form : Form) : List String :=
  let front := "usage: " ++ form.title ++ " "
  let switches := form.all.map Switch.usage
  let places := form.places.flatMap Place.usage
  let line := front ++ " ".intercalate (switches ++ places)
  if line.length ≤ helpWidth then [line]
  else
    let width := helpWidth - front.length
    match fill width switches ++ fill width places with
    | [] => [front]
    | first :: lines => (front ++ first) :: lines.map (spaces front.length ++ ·)

def Switch.header (switch : Switch) : String := ", ".intercalate (switch.names.map switch.spell)

def describe (column : Nat) (header help : String) : List String :=
  match fill (helpWidth - column) (splitText ' ' help) with
  | [] => ["  " ++ header]
  | first :: lines =>
    if help = "" then ["  " ++ header]
    else if header.length + 4 ≤ column then
      ("  " ++ header ++ spaces (column - header.length - 2) ++ first) ::
        lines.map (spaces column ++ ·)
    else ("  " ++ header) :: (first :: lines).map (spaces column ++ ·)

def Form.help (form : Form) : List String :=
  let places := form.places.map fun place => (place.name, place.help)
  let switches := form.all.map fun switch => (switch.header, switch.help)
  let longest := ((places ++ switches).map fun (header, _) => header.length).foldl max 0
  let column := min (longest + 4) helpColumn
  let part (title : String) (entries : List (String × String)) : List String :=
    "" :: title :: entries.flatMap fun (header, help) => describe column header help
  form.usage ++ part "positional arguments:" places ++ part "options:" switches

end QmlScript.CommandLine
