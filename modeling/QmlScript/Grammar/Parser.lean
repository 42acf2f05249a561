import QmlScript.Number.Reader

/-!
# Parsers

A parser is done with a value, or it misses, and another alternative may be tried at the same place, or it
stops, and no alternative can help. Of several alternatives that miss, the one that got furthest tells what is
lacking. A parser leaves notes, also when it misses.
-/

namespace QmlScript.Grammar

structure Cursor where
  offset : Nat
  before : Option Char
  left : Nat
  ahead : List Char

def Cursor.ofText (s : List Char) : Cursor := ⟨0, none, s.length, s⟩

def Cursor.advance : Nat → Cursor → Cursor
  | 0, c => c
  | n + 1, c =>
    match c.ahead with
    | [] => c
    | ch :: ahead => advance n ⟨c.offset + 1, some ch, c.left - 1, ahead⟩

inductive Anchor where
  | nothing
  | earlierRoot
  | stray
  | here (mark : Nat)
  deriving DecidableEq, Repr

inductive Warning where
  | empty (offset : Nat)
  | unused (text : String) (offset : Nat)
  deriving DecidableEq, Repr

def Warning.message : Warning → String
  | .empty offset => s!"WARNING: empty documentation string at line {offset}"
  | .unused text offset => s!"WARNING: unused documentation string {text} at line {offset}"

structure Notes where
  pending : Option String := none
  /-- The first documentation of the source, which is that of its root. -/
  root : Option String := none
  anchor : Anchor := .nothing
  marks : Nat := 0
  docs : List (Nat × String) := []
  /-- New documentation for the root of the source that was parsed last. -/
  amendment : Option String := none
  warnings : List Warning := []
  fault : Option Number.Fault := none

inductive Lack where
  | mark (text : String)
  /-- A keyword; maybe it stands there, but runs on into a longer word. -/
  | keyword (word : String) (runsOn : Bool)
  /-- A name, given by the ranges of its first and of its other characters. -/
  | name (first rest : String)
  | block
  | expression
  | typeName
  | capital
  | ending
  | anything
  deriving DecidableEq, Repr

inductive Reply (α : Type) where
  | done (value : α) (next : Cursor)
  /-- It has found nothing here; the text went wrong at the offset. -/
  | miss (offset : Nat) (lack : Lack)
  /-- The text went wrong at the offset behind a point of no return. -/
  | stop (offset : Nat) (lack : Lack)

def Parser (α : Type) : Type := Cursor → Notes → Reply α × Notes

namespace Parser

variable {α β : Type}

def pure (a : α) : Parser α := fun c notes => (.done a c, notes)

def bind (p : Parser α) (f : α → Parser β) : Parser β := fun c notes =>
  match p c notes with
  | (.done a next, notes) => f a next notes
  | (.miss offset lack, notes) => (.miss offset lack, notes)
  | (.stop offset lack, notes) => (.stop offset lack, notes)

instance : Monad Parser where
  pure := Parser.pure
  bind := Parser.bind

def orElse (p q : Parser α) : Parser α := fun c notes =>
  match p c notes with
  | (.miss offset lack, notes) =>
    match q c notes with
    | (.miss offset' lack', notes) =>
      (if offset < offset' then .miss offset' lack' else .miss offset lack, notes)
    | reply => reply
  | reply => reply

def choice : List (Parser α) → Parser α
  | [] => fun c notes => (.miss c.offset .anything, notes)
  | [p] => p
  | p :: ps => p.orElse (choice ps)

def optional (p : Parser α) : Parser (Option α) := fun c notes =>
  match p c notes with
  | (.done a next, notes) => (.done (some a) next, notes)
  | (.miss _ _, notes) => (.done none c, notes)
  | (.stop offset lack, notes) => (.stop offset lack, notes)

/-- A parser behind a point of no return: a miss is a stop. -/
def required (p : Parser α) : Parser α := fun c notes =>
  match p c notes with
  | (.miss offset lack, notes) => (.stop offset lack, notes)
  | reply => reply

/-- What the parser finds, if it does; a stop counts as a miss, and a failed number is forgotten. -/
def tentative (p : Parser α) : Parser (Option α) := fun c notes =>
  match p c notes with
  | (.done a next, notes) => (.done (some a) next, notes)
  | (.miss _ _, notes') => (.done none c, { notes' with fault := notes.fault })
  | (.stop _ _, notes') => (.done none c, { notes' with fault := notes.fault })

/-- What the parser finds until it misses, at most `bound` times. -/
def manyUpTo (p : Parser α) : (bound : Nat) → Parser (List α)
  | 0 => pure []
  | bound + 1 => fun c notes =>
    match p c notes with
    | (.done a next, notes) => (manyUpTo p bound).bind (fun as => pure (a :: as)) next notes
    | (.miss _ _, notes) => (.done [] c, notes)
    | (.stop offset lack, notes) => (.stop offset lack, notes)

/-- What the parser finds until it misses; each find reads something, so the rest bounds the rounds. -/
def many (p : Parser α) : Parser (List α) := fun c notes => p.manyUpTo (c.left + 1) c notes

def many1 (p : Parser α) : Parser (List α) := do
  let a ← p
  let as ← p.many
  return a :: as

def sepBy (p : Parser α) (sep : Parser Unit) : Parser (List α) := do
  let a ← p
  let as ← many do
    sep
    p
  return a :: as

/-- A parser that gives the whole text up for a number that cannot be read. -/
def checked (p : Parser α) : Parser α := fun c notes =>
  match p c notes with
  | (reply, notes) =>
    if notes.fault.isSome then (.stop c.offset .anything, notes) else (reply, notes)

def telling (lack : Lack) (p : Parser α) : Parser α := fun c notes =>
  match p c notes with
  | (.miss offset _, notes) => (.miss offset lack, notes)
  | (.stop offset _, notes) => (.stop offset lack, notes)
  | reply => reply

end Parser
end QmlScript.Grammar
