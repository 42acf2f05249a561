import QmlScript.Grammar.Parser
import QmlScript.Text.Scan

/-!
# Blanks, comments and imports

None of these is part of the tree, but comments may document declarations: a block comment with a second star
or a line comment with a third slash the one behind it, a line comment with a third slash and a left angle the
one before.
-/

namespace QmlScript.Grammar

def isGap (c : Char) : Bool := c = ' ' || c = '\t' || c = '\n' || c = '\r'

def isKeywordChar (c : Char) : Bool := c.isAlphanum || c = '_' || c = '$'

def blockTail? : List Char → Option Nat
  | [] => none
  | '*' :: '/' :: _ => some 2
  | _ :: s => (blockTail? s).map (· + 1)

def blockComment? : List Char → Option Nat
  | '/' :: '*' :: s => (blockTail? s).map (· + 2)
  | _ => none

/-- The length of the line; a backslash before a line break makes the next line part of it. -/
def lineTail : List Char → Nat
  | [] => 0
  | '\\' :: '\n' :: s => lineTail s + 2
  | '\n' :: _ => 0
  | _ :: s => lineTail s + 1

def lineComment? : List Char → Option Nat
  | '/' :: '/' :: s => some (lineTail s + 2)
  | _ => none

inductive KeywordMatch where
  | here
  | absent
  | runsOn
  | runsInto
  deriving DecidableEq

def keywordAt (word : List Char) (c : Cursor) : KeywordMatch :=
  match Text.after? word c.ahead with
  | none => .absent
  | some rest =>
    if c.before.any isKeywordChar then .runsInto
    else if rest.head?.any isKeywordChar then .runsOn
    else .here

def importLine? (c : Cursor) : Option Nat :=
  match keywordAt "import".toList c with
  | .here => some (6 + ((c.ahead.drop 6).takeWhile (· ≠ '\n')).length)
  | _ => none

def skipGap (c : Cursor) : Cursor := c.advance (c.ahead.takeWhile isGap).length

def Notes.document (notes : Notes) (text : List Char) (offset : Nat) (backward : Bool) : Notes :=
  let text := String.ofList (Text.trim text)
  if text = "" then { notes with warnings := .empty offset :: notes.warnings }
  else if backward then
    match notes.anchor with
    | .nothing => { notes with warnings := .unused text offset :: notes.warnings }
    | .earlierRoot => { notes with amendment := some text }
    | .stray => notes
    | .here mark => { notes with docs := (mark, text) :: notes.docs }
  else { notes with pending := some text }

def blockText (comment : List Char) : List Char := (comment.drop 3).take (comment.length - 5)

/-- Note a comment: documentation that waits is now that of the root. -/
def Notes.comment (notes : Notes) (comment : List Char) (offset : Nat) : Notes :=
  let notes := { notes with root := notes.root <|> notes.pending }
  if Text.startsWith "///<".toList comment then notes.document (comment.drop 4) offset true
  else if Text.startsWith "///".toList comment then notes.document (comment.drop 3) offset false
  else if Text.startsWith "/**".toList comment then notes.document (blockText comment) offset false
  else notes

def skipUpTo : (bound : Nat) → Cursor → Notes → Cursor × Notes
  | 0, c, notes => (skipGap c, notes)
  | bound + 1, c, notes =>
    let c := skipGap c
    match blockComment? c.ahead <|> lineComment? c.ahead with
    | some size => skipUpTo bound (c.advance size) (notes.comment (c.ahead.take size) c.offset)
    | none =>
      match importLine? c with
      | some size => skipUpTo bound (c.advance size) notes
      | none => (c, notes)

def skip (c : Cursor) (notes : Notes) : Cursor × Notes := skipUpTo (c.left + 1) c notes

/-- Finish a declaration: it gets a fresh mark and what waits. -/
def declare : Parser Nat := fun c notes =>
  let mark := notes.marks
  let docs :=
    match notes.pending with
    | some text => (mark, text) :: notes.docs
    | none => notes.docs
  (.done mark c,
    { notes with
      root := notes.root <|> notes.pending
      pending := none
      anchor := .here mark
      marks := mark + 1
      docs := docs })

end QmlScript.Grammar
