/-!
# Tables and ordered sets

A `Table` maps keys to values and remembers the order in which its keys were first set. An ordered set
is a list in ascending order without repetitions, built with `insertOrdered`.
-/

namespace QmlScript

/-- Values by keys, in the order in which the keys were first set. -/
structure Table (κ α : Type) where
  /-- The entries in order; a key stands in them once. -/
  entries : List (κ × α) := []
  deriving DecidableEq

namespace Table

variable {κ α β : Type} [DecidableEq κ]

def empty : Table κ α := ⟨[]⟩

instance : Inhabited (Table κ α) := ⟨empty⟩

def lookup (key : κ) : List (κ × α) → Option α
  | [] => none
  | (k, v) :: entries => if k = key then some v else lookup key entries

def setEntry (key : κ) (value : α) : List (κ × α) → List (κ × α)
  | [] => [(key, value)]
  | (k, v) :: entries => if k = key then (k, value) :: entries else (k, v) :: setEntry key value entries

def get? (t : Table κ α) (key : κ) : Option α := lookup key t.entries

def contains (t : Table κ α) (key : κ) : Bool := (t.get? key).isSome

/-- Set a value; a new key comes last. -/
def insert (t : Table κ α) (key : κ) (value : α) : Table κ α := ⟨setEntry key value t.entries⟩

def erase (t : Table κ α) (key : κ) : Table κ α := ⟨t.entries.filter fun (k, _) => k ≠ key⟩

def keys (t : Table κ α) : List κ := t.entries.map (·.1)

def values (t : Table κ α) : List α := t.entries.map (·.2)

def size (t : Table κ α) : Nat := t.entries.length

def map (f : α → β) (t : Table κ α) : Table κ β := ⟨t.entries.map fun (k, v) => (k, f v)⟩

/-- The table of entries; the last one with a key counts. -/
def ofList (entries : List (κ × α)) : Table κ α :=
  entries.foldl (fun t (k, v) => t.insert k v) empty

theorem lookup_setEntry_self (key : κ) (value : α) (entries : List (κ × α)) :
    lookup key (setEntry key value entries) = some value := by
  induction entries with
  | nil => simp [setEntry, lookup]
  | cons entry entries ih =>
    obtain ⟨k, v⟩ := entry
    by_cases h : k = key <;> simp [setEntry, lookup, h, ih]

theorem lookup_setEntry_of_ne {key other : κ} (value : α) (entries : List (κ × α))
    (h : key ≠ other) : lookup other (setEntry key value entries) = lookup other entries := by
  induction entries with
  | nil => simp [setEntry, lookup, h]
  | cons entry entries ih =>
    obtain ⟨k, v⟩ := entry
    by_cases hk : k = key
    · subst hk
      simp [setEntry, lookup, h]
    · simp [setEntry, lookup, hk, ih]

@[simp] theorem get?_insert_self (t : Table κ α) (key : κ) (value : α) :
    (t.insert key value).get? key = some value :=
  lookup_setEntry_self key value t.entries

theorem get?_insert_of_ne (t : Table κ α) {key other : κ} (value : α) (h : key ≠ other) :
    (t.insert key value).get? other = t.get? other :=
  lookup_setEntry_of_ne value t.entries h

end Table

def insertOrdered {α : Type} [DecidableEq α] (lt : α → α → Bool) (a : α) : List α → List α
  | [] => [a]
  | b :: bs => if a = b then b :: bs else if lt a b then a :: b :: bs else b :: insertOrdered lt a bs

def orderedSet {α : Type} [DecidableEq α] (lt : α → α → Bool) (as : List α) : List α :=
  as.foldl (fun set a => insertOrdered lt a set) []

def textLt (a b : String) : Bool := decide (a < b)

def pairLt (a b : String × String) : Bool := textLt a.1 b.1 || (a.1 == b.1 && textLt a.2 b.2)

/-- Names in ascending order, each once. -/
abbrev NameSet := List String

def NameSet.add (set : NameSet) (name : String) : NameSet := insertOrdered textLt name set

/-- Sort by a strict order; equal elements keep their order. -/
def sortBy {α : Type} (lt : α → α → Bool) (as : List α) : List α :=
  as.mergeSort fun a b => !lt b a

end QmlScript
