import QmlScript.Proofs.Declaration.Tree

/-!
# Declarations that start with a keyword

Each kind of declaration that starts with a keyword is read as it stands, whatever follows, once a component
that is part of it is read.
-/

namespace QmlScript.Grammar

open QmlScript.Grammar.Parser List

variable {α ι : Type} {p : Parser α} {P : α → Prop} {s t rest : List Char} {bound : Nat} {x : Char}
  {first other : Char → Bool}
variable {word : String} {lack : Lack} {n : Node Unit}
variable (type : PropertyType) (w : PlainName)

def openers : List String :=
  ["ListElement", "Behavior", "on", "signal", "property", "alias", "enum", "const", "id", "async", "function"]

/-- Keywords that differ in their first character. -/
def differ (word other : String) : Bool :=
  openers.contains word && openers.contains other && word.toList.head? != other.toList.head?

theorem solid_opener (h : openers.contains word = true) : Solid (word.toList ++ rest) := by
  have hfirst : ∀ word ∈ openers, word = "id" ∨ word.toList.head?.any (fun x => !opensSkipped x) = true := by
    decide
  rcases hfirst word (contains_iff_mem.mp h) with rfl | hword
  · show Solid ('i' :: 'd' :: rest)
    exact solid_of_head (by decide) (by decide) (by simp [Text.after?])
  · cases hchars : word.toList with
    | nil => simp [hchars] at hword
    | cons x w =>
      exact solid_cons (by simpa [hchars] using hword)

theorem exists_opener (h : openers.contains word = true) : ∃ x w, word.toList = x :: w := by
  have hne : ∀ word ∈ openers, word.toList ≠ [] := by decide
  exact exists_cons_of_ne_nil (hne word (contains_iff_mem.mp h))

theorem takes_opener_before (h : openers.contains word = true) (hx : isKeywordChar x = false) :
    Takes (keyword word) (' ' :: word.toList) (fun _ => True) (x :: rest) := by
  obtain ⟨y, w, hword⟩ := exists_opener h
  have hsolid := @solid_opener (x :: rest) word h
  rw [hword] at hsolid ⊢
  exact takes_keyword hword hsolid (by simpa using hx)

theorem takes_opener (h : openers.contains word = true) :
    Takes (keyword word) (' ' :: word.toList) (fun _ => True) (' ' :: rest) := takes_opener_before h rfl

theorem fails_opener {other : String} (h : differ word other = true) :
    Fails (keyword word) (' ' :: other.toList ++ s ++ rest) := by
  simp only [differ, Bool.and_eq_true, bne_iff_ne] at h
  obtain ⟨⟨hmem, hmem'⟩, hne⟩ := h
  obtain ⟨x, w, hword⟩ := exists_opener hmem
  obtain ⟨y, u, hother⟩ := exists_opener hmem'
  have hsolid := @solid_opener (s ++ rest) other hmem'
  rw [hword, hother] at hne
  rw [append_assoc]
  rw [hother] at hsolid ⊢
  refine Fails.behind_blank (fails_of_misses fun c notes hf => keyword_misses_of_ne hword hf hsolid ?_)
  rintro rfl
  exact hne rfl

theorem Takes.before_blank (h : Takes p s P (' ' :: rest)) : Takes p (s ++ [' ']) P rest := by
  intro c notes hf hfault
  rw [append_assoc] at hf
  obtain ⟨a, c', notes', hdone, ha, hc', hfault'⟩ := h c notes hf hfault
  exact ⟨a, c', notes', hdone, ha, hc'.behind_blank, hfault'⟩

theorem takes_comma : Takes (mark ",") [',', ' '] (fun _ => True) rest := (takes_mark (x := ',') rfl rfl).before_blank

theorem takes_colon : Takes (mark ":") [':'] (fun _ => True) rest := takes_mark rfl rfl

theorem takes_semicolon : Takes (mark ";") [';'] (fun _ => True) rest := takes_mark rfl rfl

theorem takes_opening : Takes (mark "\x7b") [' ', '\x7b'] (fun _ => True) rest := (takes_mark rfl rfl).behind_blank

theorem takes_closing : Takes (mark "\x7d") [' ', '\x7d'] (fun _ => True) rest := (takes_mark rfl rfl).behind_blank

theorem apart_blank : Apart (' ' :: rest) := apart_cons rfl

theorem apart_mark (hx : isMark x = true) : Apart (x :: rest) := apart_cons (not_path_of_isMark hx)

theorem takes_listed {chars : ι → List Char} {value : ι → α} {R : List Char → Prop}
    (hitem : ∀ i t, R t → Takes p (chars i) (· = value i) t) (hnext : ∀ t, R (',' :: ' ' :: t))
    (hrest : R rest) (hend : Fails (mark ",") rest) (first : ι) (others : List ι) :
    Takes (p.sepBy (mark ",")) (listed chars first others) (· = (first :: others).map value) rest :=
  takes_sepBy (fun i _ => hitem i) (fun _ => takes_comma) (by simp) hnext hrest hend

theorem takes_names [Spelling first other] (hrest : Apart rest) (hend : Fails (mark ",") rest) (w : Ident first other)
    (ws : List (Ident first other)) :
    Takes ((name lack first other).sepBy (mark ",")) (listed (fun w : Ident first other => w.chars) w ws)
      (· = (w :: ws).map Ident.text) rest :=
  takes_listed (fun w _ ht => w.takes ht) (fun _ => apart_mark rfl) hrest hend w ws

theorem takes_listing_before [Spelling first other] (hx : isMark x = true) (hcomma : ',' ≠ x) (w : Ident first other)
    (ws : List (Ident first other)) :
    Takes ((name lack first other).sepBy (mark ","))
      (' ' :: listed (fun w : Ident first other => w.chars) w ws) (· = (w :: ws).map Ident.text)
      (' ' :: x :: rest) := (takes_names apart_blank (fails_mark rfl hx hcomma).behind_blank w ws).behind_blank

theorem takes_given {chars : ι → List Char} {value : ι → α} (o : Option ι)
    (h : ∀ i, Takes p (' ' :: chars i) (· = value i) rest) (hend : Fails (mark ":") rest) :
    Takes (optional ((mark ":").bind fun _ => p)) (given chars o) (· = o.map value) rest := by
  cases o with
  | none => exact hend.bind.optional
  | some i =>
    refine (takes_colon.bind fun _ _ => h i).optional.mono ?_
    rintro _ ⟨a, rfl, rfl⟩
    rfl

theorem Ident.takes_before [Spelling first other] (w : Ident first other) (hx : isMark x = true) :
    Takes (name lack first other) (' ' :: w.chars) (· = w.text) (x :: rest) := (w.takes (apart_mark hx)).behind_blank

theorem takes_ended {node : Nat → Marked} (h : ∀ mark, (node mark).undocumented = n) :
    TakesTree ((required (mark ";")).bind fun _ => declare.bind fun mark => Parser.pure (node mark)) [';']
      n rest := takes_semicolon.required.bind_nil fun _ _ => takes_finish h

/-- The parser reads a declaration as it is printed. -/
abbrev TakesDecl (p : Parser Marked) (d : Decl) (rest : List Char) : Prop :=
  TakesTree p d.chars d.node rest

def namedAlternatives (value : Parser Marked) : List (Parser Marked) :=
  [assignmentDeclaration, assignmentOf value, value, handlerDeclaration, functionDeclaration,
    scopeDeclaration, constantDeclaration]

theorem declarationUpTo_succ (bound : Nat) :
    declarationUpTo (bound + 1) =
      choice ([rowDeclaration, behaviorOf (componentUpTo bound), signalDeclaration, aliasDeclaration,
        choiceDeclaration, codePropertyDeclaration, propertyOf (componentUpTo bound),
        identifierDeclaration] ++ namedAlternatives (componentUpTo bound)) := by
  rw [declarationUpTo, declarationOf]
  rfl

def Item.marked (item : Item) : String × Marked :=
  (item.name.text, ((item.value.map fun v => parenthesised v.code).map Node.text).getD .absent)

def EndsItem (s : List Char) : Prop := ∃ x t, s = x :: t ∧ (x = ';' ∨ x = ',')

theorem takes_item (item : Item) (h : EndsItem rest) : Takes itemOf item.chars (· = item.marked) rest := by
  obtain ⟨x, t, rfl, hx⟩ := h
  have hmark : isMark x = true := by rcases hx with rfl | rfl <;> decide
  have hcolon : ':' ≠ x := by rcases hx with rfl | rfl <;> decide
  have hname : Apart (given Value.chars item.value ++ x :: t) := by
    cases item.value with
    | none => exact apart_mark hmark
    | some v => exact apart_mark rfl
  refine (item.name.takes hname).bind_eq ?_
  refine (takes_given item.value (fun v => v.takes hx) (fails_mark rfl hmark hcolon)).bind_nil ?_
  rintro _ rfl
  exact takes_pure rfl

theorem takes_plainProperties (first : Item) (others : List Item) :
    Takes plainProperties (propertyChars type.chars (' ' :: listed Item.chars first others ++ [';']))
      (· = (type.text, (first :: others).map Item.marked)) rest := by
  refine (takes_opener rfl).bind fun _ _ => ?_
  refine (type.takes apart_blank).behind_blank.bind ?_
  rintro _ rfl
  have hitems : Takes propertyItems (listed Item.chars first others) (· = (first :: others).map Item.marked)
      ([';'] ++ rest) :=
    takes_listed (fun item _ ht => takes_item item ht) (fun _ => ⟨_, _, rfl, .inr rfl⟩) ⟨_, _, rfl, .inl rfl⟩
      (fails_mark rfl rfl (by decide)) first others
  refine hitems.behind_blank.bind_eq ?_
  exact takes_semicolon.bind_nil fun _ _ => takes_pure rfl

theorem mapItems_marked (items : List Item) :
    Node.mapItems (fun _ => ()) (items.map Item.marked) = items.map Item.node := by
  induction items with
  | nil => rfl
  | cons item items ih =>
    have hitem : (item.marked.1, item.marked.2.mapDoc fun _ => ()) = item.node := by
      rw [Item.marked, Item.node]
      cases item.value with
      | none | some v => rfl
    rw [map_cons, Node.mapItems, ih, hitem, map_cons]

theorem takes_properties (value : Parser Marked) (type : PropertyType) (first : Item) (others : List Item)
    (rest : List Char) :
    TakesDecl (propertyOf value) (.properties type first others) rest := by
  rw [TakesDecl, Decl.chars, Decl.node]
  refine (takes_plainProperties type first others).orElse.bind_nil ?_
  rintro _ rfl
  refine takes_finish fun mark => ?_
  rw [Node.undocumented, Node.mapDoc, mapItems_marked]

theorem fails_plainProperties (value : ValueType) :
    Fails plainProperties (propertyChars type.chars
      (' ' :: w.chars ++ ([':'] ++ ' ' :: (value.chars ++ ' ' :: '\x7b' :: s)))) := by
  refine (takes_opener rfl).bind_fails fun _ _ => ?_
  refine (type.takes apart_blank).behind_blank.bind_fails fun _ _ => ?_
  have hvalue : Balks (optional ((mark ":").bind fun _ => checkedExpression))
      ([':'] ++ ' ' :: (value.chars ++ ' ' :: '\x7b' :: s)) :=
    (takes_colon.bind_balks fun _ _ => value.balks).optional rfl
  have hitem : Balks itemOf (' ' :: w.chars ++ ([':'] ++ ' ' :: (value.chars ++ ' ' :: '\x7b' :: s))) :=
    (w.takes (apart_mark rfl)).behind_blank.bind_balks fun _ _ =>
      hvalue.bind fun _ _ hstuck => (takes_pure (P := fun _ => True) trivial).balks hstuck
  have hitems : Balks propertyItems (' ' :: w.chars ++ ([':'] ++ ' ' :: (value.chars ++ ' ' :: '\x7b' :: s))) := by
    refine hitem.bind fun _ t hstuck => ?_
    have hend : Fails ((mark ",").bind fun _ => itemOf) t := (hstuck.fails_mark rfl (.inr rfl)).bind
    exact (hend.many.bind_nil fun _ _ => takes_pure (P := fun _ => True) trivial).balks hstuck
  exact hitems.bind_fails fun _ _ hstuck => (hstuck.fails_mark rfl (.inl rfl)).bind

theorem takes_object {value : Parser Marked} (object : ValueType)
    (h : ∀ rest, TakesTree value (object.chars ++ ' ' :: '\x7b' :: s) n rest) :
    TakesTree (propertyOf value)
      (propertyChars type.chars (' ' :: w.chars ++ ([':'] ++ ' ' :: (object.chars ++ ' ' :: '\x7b' :: s))))
      (.property () type.text [(w.text, n)]) rest := by
  have hobject : Takes (objectProperty value)
      (propertyChars type.chars (' ' :: w.chars ++ ([':'] ++ ' ' :: (object.chars ++ ' ' :: '\x7b' :: s))))
      (fun found => ∃ node : Marked, found = (type.text, [(w.text, node)]) ∧ node.undocumented = n) rest := by
    refine (takes_opener rfl).bind fun _ _ => ?_
    refine (type.takes apart_blank).behind_blank.bind_eq ?_
    refine (w.takes_before rfl).bind_eq ?_
    refine takes_colon.bind fun _ _ => ?_
    exact (h rest).behind_blank.bind_nil fun node hnode => takes_pure ⟨node, rfl, hnode⟩
  have hfails : Fails plainProperties (propertyChars type.chars
      (' ' :: w.chars ++ ([':'] ++ ' ' :: (object.chars ++ ' ' :: '\x7b' :: s))) ++ rest) := by
    have h := fails_plainProperties (s := s ++ rest) type w object
    simpa [propertyChars] using h
  refine (hfails.orElse hobject).bind_nil ?_
  rintro _ ⟨node, rfl, hnode⟩
  refine takes_finish fun mark => ?_
  rw [Node.undocumented] at hnode ⊢
  simp only [Node.mapDoc, Node.mapItems, hnode]

end QmlScript.Grammar
