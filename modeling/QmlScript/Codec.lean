import QmlScript.Node

/-!
# Codecs

A codec writes values as texts, and reads such a text as the value that it was written for. Values are written as
labelled terms, on one line: there is a mark in front of each character of a label, so that no label can close
the term that it is in.
-/

namespace QmlScript

/-- A way to write values as texts from which they can be restored. -/
structure Codec (α : Type) where
  encode : α → String
  decode? : String → Option α
  decode?_encode : ∀ value, decode? (encode value) = some value

/-- What values of every type are written as. -/
inductive Term where
  | node (label : String) (parts : List Term)

namespace Term

def label : Term → String
  | node label _ => label

def parts : Term → List Term
  | node _ parts => parts

def markedChar (c : Char) : List Char := if c = '\n' then ['!', 'n'] else ['.', c]

mutual

def chars : Term → List Char
  | node label parts => '(' :: (label.toList.flatMap markedChar ++ (charsOf parts ++ [')']))

def charsOf : List Term → List Char
  | [] => []
  | term :: terms => chars term ++ charsOf terms

end

def text (term : Term) : String := String.ofList term.chars

/-- The term of a text, given the labels and parts of the terms around it, innermost first and reversed. -/
def read? : List Char → List (List Char × List Term) → Option Term
  | [], [([], [term])] => some term
  | '(' :: s, unclosed => read? s (([], []) :: unclosed)
  | ')' :: s, (label, parts) :: (outer, others) :: unclosed =>
    read? s ((outer, node (String.ofList label.reverse) parts.reverse :: others) :: unclosed)
  | '.' :: c :: s, (label, parts) :: unclosed => read? s ((c :: label, parts) :: unclosed)
  | '!' :: _ :: s, (label, parts) :: unclosed => read? s (('\n' :: label, parts) :: unclosed)
  | _, _ => none

def ofText? (text : String) : Option Term := read? text.toList [([], [])]

theorem read?_label (s t label : List Char) (parts : List Term) (unclosed : List (List Char × List Term)) :
    read? (s.flatMap markedChar ++ t) ((label, parts) :: unclosed) =
      read? t ((s.reverse ++ label, parts) :: unclosed) := by
  induction s generalizing label with
  | nil => rfl
  | cons c s ih =>
    rw [List.flatMap_cons, List.append_assoc, List.reverse_cons, List.append_assoc, List.singleton_append, ← ih]
    by_cases hline : c = '\n'
    · rw [hline]
      rfl
    · rw [markedChar, if_neg hline]
      rfl

mutual

theorem read?_chars (s label : List Char) (parts : List Term) (unclosed : List (List Char × List Term)) :
    ∀ term : Term, read? (term.chars ++ s) ((label, parts) :: unclosed) = read? s ((label, term :: parts) :: unclosed)
  | node name terms => by
    rw [chars, List.cons_append, List.append_assoc, List.append_assoc]
    calc read? (name.toList.flatMap markedChar ++ (charsOf terms ++ ')' :: s)) (([], []) :: (label, parts) :: unclosed)
      _ = read? (charsOf terms ++ ')' :: s) ((name.toList.reverse ++ [], []) :: (label, parts) :: unclosed) :=
        read?_label ..
      _ = read? (')' :: s) ((name.toList.reverse ++ [], terms.reverse ++ []) :: (label, parts) :: unclosed) :=
        read?_charsOf ..
      _ = _ := by simp [read?]

theorem read?_charsOf (s label : List Char) (parts : List Term) (unclosed : List (List Char × List Term)) :
    ∀ terms : List Term,
      read? (charsOf terms ++ s) ((label, parts) :: unclosed) = read? s ((label, terms.reverse ++ parts) :: unclosed)
  | [] => rfl
  | term :: terms => by
    rw [charsOf, List.append_assoc, read?_chars, read?_charsOf]
    simp

end

theorem ofText?_text (term : Term) : ofText? term.text = some term := by
  rw [ofText?, text, String.toList_ofList, ← List.append_nil term.chars, read?_chars]
  rfl

def word (s : String) : Term := node s []

@[simp] theorem label_word (s : String) : (word s).label = s := rfl

def ofWords (words : List String) : Term := node "" (words.map word)

def words (term : Term) : List String := term.parts.map label

@[simp] theorem words_ofWords (words : List String) : (ofWords words).words = words := by
  simp [ofWords, Term.words, parts, word, label, Function.comp_def]

def ofBool (b : Bool) : Term := word (if b then "true" else "")

def bool (term : Term) : Bool := term.label = "true"

@[simp] theorem bool_ofBool (b : Bool) : (ofBool b).bool = b := by cases b <;> decide

def ofNat (n : Nat) : Term := word (String.ofList (Nat.toDigits 10 n))

def nat (term : Term) : Nat := Nat.ofDigitChars 10 term.label.toList 0

@[simp] theorem nat_ofNat (n : Nat) : (ofNat n).nat = n := by
  simp [ofNat, nat, word, label, Nat.ofDigitChars_ten_toDigits]

/-- A whole number: its sign is that of the part that is not zero. -/
def ofInt (n : Int) : Term := node "" [ofNat n.toNat, ofNat (-n).toNat]

def int : Term → Int
  | node _ [above, below] => above.nat - below.nat
  | _ => 0

@[simp] theorem int_ofInt (n : Int) : (ofInt n).int = n := by
  rw [ofInt, int, nat_ofNat, nat_ofNat]
  omega

def ofDouble : Double → Term
  | .finite negative units power => node "" [ofBool negative, ofNat units, ofInt power]
  | .infinite negative => node "" [ofBool negative]
  | .notANumber => node "" []

def double : Term → Double
  | node _ [negative, units, power] => .finite negative.bool units.nat power.int
  | node _ [negative] => .infinite negative.bool
  | _ => .notANumber

@[simp] theorem double_ofDouble (d : Double) : (ofDouble d).double = d := by
  cases d <;> simp [ofDouble, double]

end Term

namespace Json

open Term

mutual

def term : Json → Term
  | .null => node "null" []
  | .bool value => node "bool" [ofBool value]
  | .int value => node "int" [ofInt value]
  | .double value => node "double" [ofDouble value]
  | .str value => node "str" [word value]
  | .arr items => node "arr" (termsOf items)
  | .obj fields => node "obj" (fieldTerms fields)

def termsOf : List Json → List Term
  | [] => []
  | item :: items => term item :: termsOf items

def fieldTerms : List (String × Json) → List Term
  | [] => []
  | (key, value) :: fields => node key [term value] :: fieldTerms fields

end

mutual

def ofTerm? : Term → Option Json
  | node "null" [] => some .null
  | node "bool" [value] => some (.bool value.bool)
  | node "int" [value] => some (.int value.int)
  | node "double" [value] => some (.double value.double)
  | node "str" [value] => some (.str value.label)
  | node "arr" items => (ofTerms? items).map .arr
  | node "obj" fields => (ofFields? fields).map .obj
  | _ => none

def ofTerms? : List Term → Option (List Json)
  | [] => some []
  | item :: items => do return (← ofTerm? item) :: (← ofTerms? items)

def ofFields? : List Term → Option (List (String × Json))
  | [] => some []
  | node key [value] :: fields => do return (key, ← ofTerm? value) :: (← ofFields? fields)
  | _ => none

end

mutual

theorem ofTerm?_term : ∀ value : Json, ofTerm? value.term = some value
  | .null => rfl
  | .bool value => by simp [term, ofTerm?]
  | .int value => by simp [term, ofTerm?]
  | .double value => by simp [term, ofTerm?]
  | .str value => rfl
  | .arr items => by simp [term, ofTerm?, ofTerms?_termsOf items]
  | .obj fields => by simp [term, ofTerm?, ofFields?_fieldTerms fields]

theorem ofTerms?_termsOf : ∀ items : List Json, ofTerms? (termsOf items) = some items
  | [] => rfl
  | item :: items => by simp [termsOf, ofTerms?, ofTerm?_term item, ofTerms?_termsOf items]

theorem ofFields?_fieldTerms : ∀ fields : List (String × Json), ofFields? (fieldTerms fields) = some fields
  | [] => rfl
  | (key, value) :: fields => by
    simp [fieldTerms, ofFields?, ofTerm?_term value, ofFields?_fieldTerms fields]

end

end Json

namespace Tree

open Term

mutual

def term : Tree → Term
  | .component doc type body => node "component" (ofWords doc.toList :: word type :: termsOf body)
  | .property doc type items => node "property" (ofWords doc.toList :: word type :: itemTerms items)
  | .const doc type name value => node "const" [ofWords doc.toList, word type, word name, value.term]
  | .alias doc name target => node "alias" [ofWords doc.toList, word name, word target]
  | .choice doc name values default =>
    node "choice" [ofWords doc.toList, word name, ofWords values, ofWords default.toList]
  | .method doc names args code event async =>
    node "method" [ofWords doc.toList, ofWords names, ofWords args, word code, ofBool event, ofBool async]
  | .identifier doc name => node "identifier" [ofWords doc.toList, word name]
  | .assignment doc target value => node "assignment" [ofWords doc.toList, word target, term value]
  | .scope doc target values => node "scope" (ofWords doc.toList :: word target :: termsOf values)
  | .behavior doc targets animation => node "behavior" [ofWords doc.toList, ofWords targets, term animation]
  | .signal doc name => node "signal" [ofWords doc.toList, word name]
  | .row data => node "row" [data.term]
  | .plain value => node "plain" [value.term]

def termsOf : List Tree → List Term
  | [] => []
  | tree :: trees => term tree :: termsOf trees

def itemTerms : List (String × Tree) → List Term
  | [] => []
  | (name, value) :: items => node name [term value] :: itemTerms items

end

mutual

def ofTerm? : Term → Option Tree
  | node "component" (doc :: type :: body) => (ofTerms? body).map (.component doc.words.head? type.label)
  | node "property" (doc :: type :: items) => (ofItems? items).map (.property doc.words.head? type.label)
  | node "const" [doc, type, name, value] =>
    (Json.ofTerm? value).map (.const doc.words.head? type.label name.label)
  | node "alias" [doc, name, target] => some (.alias doc.words.head? name.label target.label)
  | node "choice" [doc, name, values, default] =>
    some (.choice doc.words.head? name.label values.words default.words.head?)
  | node "method" [doc, names, args, code, event, async] =>
    some (.method doc.words.head? names.words args.words code.label event.bool async.bool)
  | node "identifier" [doc, name] => some (.identifier doc.words.head? name.label)
  | node "assignment" [doc, target, value] => (ofTerm? value).map (.assignment doc.words.head? target.label)
  | node "scope" (doc :: target :: values) => (ofTerms? values).map (.scope doc.words.head? target.label)
  | node "behavior" [doc, targets, animation] => (ofTerm? animation).map (.behavior doc.words.head? targets.words)
  | node "signal" [doc, name] => some (.signal doc.words.head? name.label)
  | node "row" [data] => (Json.ofTerm? data).map .row
  | node "plain" [value] => (Json.ofTerm? value).map .plain
  | _ => none

def ofTerms? : List Term → Option (List Tree)
  | [] => some []
  | tree :: trees => do return (← ofTerm? tree) :: (← ofTerms? trees)

def ofItems? : List Term → Option (List (String × Tree))
  | [] => some []
  | node name [value] :: items => do return (name, ← ofTerm? value) :: (← ofItems? items)
  | _ => none

end

mutual

theorem ofTerm?_term : ∀ tree : Tree, ofTerm? (term tree) = some tree
  | .component doc type body => by simp [term, ofTerm?, ofTerms?_termsOf body]
  | .property doc type items => by simp [term, ofTerm?, ofItems?_itemTerms items]
  | .const doc type name value => by simp [term, ofTerm?, Json.ofTerm?_term]
  | .alias doc name target => by simp [term, ofTerm?]
  | .choice doc name values default => by simp [term, ofTerm?]
  | .method doc names args code event async => by simp [term, ofTerm?]
  | .identifier doc name => by simp [term, ofTerm?]
  | .assignment doc target value => by simp [term, ofTerm?, ofTerm?_term value]
  | .scope doc target values => by simp [term, ofTerm?, ofTerms?_termsOf values]
  | .behavior doc targets animation => by simp [term, ofTerm?, ofTerm?_term animation]
  | .signal doc name => by simp [term, ofTerm?]
  | .row data => by simp [term, ofTerm?, Json.ofTerm?_term]
  | .plain value => by simp [term, ofTerm?, Json.ofTerm?_term]

theorem ofTerms?_termsOf : ∀ trees : List Tree, ofTerms? (termsOf trees) = some trees
  | [] => rfl
  | tree :: trees => by simp [termsOf, ofTerms?, ofTerm?_term tree, ofTerms?_termsOf trees]

theorem ofItems?_itemTerms : ∀ items : List (String × Tree), ofItems? (itemTerms items) = some items
  | [] => rfl
  | (name, value) :: items => by simp [itemTerms, ofItems?, ofTerm?_term value, ofItems?_itemTerms items]

end

end Tree

namespace Codec

variable {α : Type}

def ofTerm (term : α → Term) (ofTerm? : Term → Option α) (h : ∀ value, ofTerm? (term value) = some value) :
    Codec α where
  encode value := (term value).text
  decode? text := (Term.ofText? text).bind ofTerm?
  decode?_encode value := by rw [Term.ofText?_text, Option.bind_some, h]

def json : Codec Json := ofTerm Json.term Json.ofTerm? Json.ofTerm?_term

def tree : Codec Tree := ofTerm Tree.term Tree.ofTerm? Tree.ofTerm?_term

theorem encode_injective (codec : Codec α) {a b : α} (h : codec.encode a = codec.encode b) : a = b := by
  have hdecode := congrArg codec.decode? h
  rw [codec.decode?_encode, codec.decode?_encode] at hdecode
  exact Option.some.inj hdecode

/-- Values are equal if their texts are. -/
def decEq (codec : Codec α) : DecidableEq α := fun _ _ =>
  decidable_of_iff (codec.encode _ = codec.encode _) ⟨codec.encode_injective, congrArg _⟩

end Codec

instance : DecidableEq Json := Codec.json.decEq

instance : DecidableEq Tree := Codec.tree.decEq

end QmlScript
