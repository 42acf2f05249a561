import QmlScript.Proofs.Declaration.Keyword

/-!
# Declarations that start with a name

Assignments, components, handlers, functions and objects all start with a name, or with a word that the
grammar would also take for one. What follows tells them apart: the alternatives that come first find nothing,
though that for components reads all of an object.
-/

namespace QmlScript.Grammar

open QmlScript.Grammar.Parser List

variable {α β : Type} {P : α → Prop} {s t w rest : List Char} {bound : Nat} {x : Char}
  {first other : Char → Bool}
variable {ι : Type} {lack : Lack} {items : List ι} {node : ι → Node Unit} {chars : ι → List Char} {type : TypeName}
  {value : Parser Marked} {n : Node Unit}

/-- The word stands before `rest`, and is read as a name to its end. -/
structure Stands (w rest : List Char) : Prop where
  ne_nil : w ≠ []
  path : ∀ y ∈ w, isPathChar y = true
  solid : Solid (w ++ rest)
  apart : Apart rest

theorem Ident.stands [Spelling first other] (w : Ident first other) (h : Apart rest) : Stands w.chars rest :=
  ⟨by simp [Word.chars], w.isPathChar_of_mem, w.solid h, h⟩

theorem stands_opener {word : String} (h : openers.contains word = true) (hrest : Apart rest) :
    Stands word.toList rest := by
  have hwords : ∀ word ∈ openers, word.toList ≠ [] ∧ word.toList.all isPathChar = true := by decide
  obtain ⟨hne, hall⟩ := hwords word (contains_iff_mem.mp h)
  exact ⟨hne, all_eq_true.mp hall, solid_opener h, hrest⟩

theorem Stands.fails_mark {word : String} (h : Stands w rest) (hword : word.toList = [x])
    (hx : isMark x = true) : Fails (mark word) (w ++ rest) := by
  obtain ⟨y, u, rfl⟩ := exists_cons_of_ne_nil h.ne_nil
  refine fails_of_misses fun c notes hf => mark_misses_of_ne hword hf h.solid ?_
  rintro rfl
  exact absurd (h.path x (by simp)) (by simp [not_path_of_isMark hx])

theorem Stands.takes_or_fails (h : Stands w rest) (lack : Lack) (first : Char → Bool) :
    Takes (name lack first isPathChar) w (· = String.ofList w) rest ∨
      Fails (name lack first isPathChar) (w ++ rest) := by
  obtain ⟨y, u, rfl⟩ := exists_cons_of_ne_nil h.ne_nil
  cases hy : first y with
  | true =>
    left
    exact takes_of_done fun c notes hf =>
      (hf.meets h.solid).name_done hy (fun z hz => h.path z (by simp [hz])) h.apart
  | false =>
    right
    exact fails_of_misses fun c notes hf => name_misses hf h.solid hy

theorem Stands.name_fails {f : String → Parser β} (h : Stands w rest)
    (hf : ∀ a, Fails (f a) rest) : Fails ((name lack first isPathChar).bind f) (w ++ rest) := by
  rcases h.takes_or_fails lack first with htakes | hfails
  · exact htakes.bind_fails fun a _ => hf a
  · exact hfails.bind

theorem takes_place (h : Solid s) : Takes place [] (fun _ => True) s := by
  intro c notes hf hfault
  exact ⟨_, c.reach s, notes, place_eq hf h, trivial, hf.reach_head.faces, hfault⟩

theorem Stands.component_fails (h : Stands w rest) (hbrace : Fails (mark "\x7b") rest) :
    Fails (componentUpTo bound) (w ++ rest) := by
  cases bound with
  | zero => exact fun c notes _ hfault => ⟨_, _, notes, rfl, hfault⟩
  | succ bound =>
    rw [componentUpTo, componentOf]
    exact (takes_place h.solid).bind_fails (s := []) fun _ _ => h.name_fails fun _ => hbrace.bind

theorem Decl.chars_ne_nil (d : Decl) : d.chars ≠ [] := by
  cases d <;> simp [Decl.chars, propertyChars, assignmentChars]

theorem mapDocs_of_forall₂ {nodes : List Marked} (h : List.Forall₂ (fun i n => n.undocumented = node i) items nodes) :
    Node.mapDocs (fun _ => ()) nodes = items.map node := by
  induction h with
  | nil => rfl
  | cons hnode _ ih =>
    rw [Node.mapDocs, map_cons, ih]
    exact congrArg (· :: _) hnode

theorem takes_body (hne : ∀ i ∈ items, chars i ≠ [])
    (h : ∀ i ∈ items, ∀ rest, TakesTree (declarationUpTo bound) (chars i) (node i) rest) (rest : List Char) :
    Takes (declarationUpTo bound).many (items.flatMap chars)
      (fun nodes => Node.mapDocs (fun _ => ()) nodes = items.map node) ([' ', '\x7d'] ++ rest) := by
  have hend : Fails (declarationUpTo bound) ([' ', '\x7d'] ++ rest) :=
    (fails_of_misses fun _ _ hf => declaration_misses hf).behind_blank
  exact (takes_many (R := fun _ => True) (fun i hi t _ => h i hi t) hne (fun _ _ _ => trivial) trivial
    hend).mono fun _ hnodes => mapDocs_of_forall₂ hnodes

theorem takes_checkType (type : TypeName) (start : Nat) :
    Takes (checkType type.text start) [] (fun _ => True) rest := by
  intro c notes hf hfault
  have hcapital := type.capital
  refine ⟨(), c, notes, ?_, trivial, hf, hfault⟩
  simp only [checkType, Ident.text, String.toList_ofList, Word.chars]
  rw [lastPart] at hcapital
  cases hlast : (Text.splitOn '.' (type.head :: type.tail)).getLastD [] with
  | nil =>
    rw [hlast] at hcapital
    cases hcapital
  | cons y u =>
    rw [hlast] at hcapital
    have hy : Text.isSmall y = false := by simpa using hcapital
    simp [hy]

theorem fails_checkType (target : ScopeName) (start : Nat) : Fails (checkType target.text start) rest := by
  intro c notes hf hfault
  have hsmall := target.small
  simp only [checkType, Ident.text, String.toList_ofList, Word.chars]
  rw [lastPart] at hsmall
  cases hlast : (Text.splitOn '.' (target.head :: target.tail)).getLastD [] with
  | nil =>
    rw [hlast] at hsmall
    cases hsmall
  | cons y u =>
    rw [hlast] at hsmall
    have hy : Text.isSmall y = true := hsmall
    exact ⟨start, .capital, notes, by simp [hy], hfault⟩

theorem takes_component_of (hne : ∀ i ∈ items, chars i ≠ [])
    (h : ∀ i ∈ items, ∀ rest, TakesTree (declarationUpTo bound) (chars i) (node i) rest) :
    TakesTree (componentUpTo (bound + 1)) (componentChars type (items.flatMap chars))
      (.component () type.text (items.map node)) rest := by
  have hapart : Apart ([' ', '\x7b'] ++ (items.flatMap chars ++ [' ', '\x7d']) ++ rest) := apart_blank
  have hsolid : Solid (componentChars type (items.flatMap chars) ++ rest) := by
    rw [componentChars, append_assoc]
    exact type.solid hapart
  rw [componentUpTo, componentOf]
  refine Takes.bind (s := []) (takes_place hsolid) fun start _ => ?_
  refine (type.takes hapart).bind_eq ?_
  refine takes_opening.bind fun _ _ => ?_
  refine (takes_body hne h _).bind fun nodes hnodes => ?_
  refine takes_closing.bind_nil fun _ _ => ?_
  refine (takes_checkType type start).bind_nil fun _ _ => takes_finish fun mark => ?_
  rw [Node.undocumented, Node.mapDoc, hnodes]

/-- The keywords that declarations start with, those with a name apart. -/
def leading : List String := ["ListElement", "Behavior", "signal", "property", "id"]

theorem takes_named {P : Marked → Prop} (hkeyword : ∀ word ∈ leading, Fails (keyword word) (s ++ rest))
    (h : Takes (choice (namedAlternatives (componentUpTo bound))) s P rest) :
    Takes (declarationUpTo (bound + 1)) s P rest := by
  have hproperty := hkeyword "property" (by decide)
  have hproperties : Fails (propertyOf (componentUpTo bound)) (s ++ rest) :=
    (hproperty.bind.or hproperty.bind).bind
  rw [declarationUpTo_succ]
  refine (hkeyword "ListElement" (by decide)).bind.choice ?_
  refine (hkeyword "Behavior" (by decide)).bind.choice ?_
  refine (hkeyword "signal" (by decide)).bind.choice ?_
  refine hproperty.bind.choice (hproperty.bind.choice (hproperty.bind.choice ?_))
  refine hproperties.choice ?_
  exact (hkeyword "id" (by decide)).bind.choice h

theorem Ident.leading_fails [Spelling first other] (w : Ident first other) (h : Apart rest) :
    ∀ word ∈ leading, Fails (keyword word) (' ' :: w.chars ++ rest) := by
  have hkeywords : ∀ word ∈ leading, word ∈ keywords := by decide
  exact fun word hword => (w.keyword_fails h (hkeywords word hword)).behind_blank

theorem takes_assignmentTo [Spelling first other] {a : String} (target : Ident first other)
    (h : Takes checkedExpression (' ' :: s) (· = a) (';' :: rest)) :
    TakesTree (assignmentTo (name lack first other)) (' ' :: target.chars ++ ([':'] ++ (' ' :: s ++ [';'])))
      (.assignment () target.text (.text a)) rest := by
  refine (target.takes_before rfl).bind_eq ?_
  refine takes_colon.bind fun _ _ => ?_
  refine h.bind_eq ?_
  exact takes_semicolon.bind_nil fun _ _ => takes_finish fun _ => rfl

theorem takes_assignment [Spelling first other] (target : Ident first other) (v : Value) :
    TakesTree (assignmentTo (name lack first other)) (assignmentChars target.chars v)
      (.assignment () target.text v.node) rest := takes_assignmentTo target (v.takes (.inl rfl))

theorem takes_declared_assignment (target : PathName) (v : Value) :
    TakesDecl (declarationUpTo (bound + 1)) (.assignment target v) rest := by
  rw [TakesDecl, Decl.chars, Decl.node]
  refine takes_named ?_ (takes_assignment target v).choice
  rw [assignmentChars, append_assoc]
  exact target.leading_fails (apart_mark rfl)

theorem fails_assignment (target : PathName) (value : ValueType) :
    Fails assignmentDeclaration (' ' :: target.chars ++ ([':'] ++ ' ' :: (value.chars ++ ' ' :: '\x7b' :: s))) := by
  refine (target.takes_before rfl).bind_fails fun _ _ => ?_
  refine takes_colon.bind_fails fun _ _ => ?_
  exact value.balks.bind_fails fun _ _ hstuck => (hstuck.fails_mark rfl (.inl rfl)).bind

theorem takes_assigned (target : PathName) (type : ValueType)
    (h : ∀ rest, TakesTree value (type.chars ++ ' ' :: '\x7b' :: s) n rest) :
    TakesTree (choice (namedAlternatives value))
      (' ' :: target.chars ++ ([':'] ++ ' ' :: (type.chars ++ ' ' :: '\x7b' :: s)))
      (.assignment () target.text n) rest := by
  have hvalue : TakesTree (assignmentOf value)
      (' ' :: target.chars ++ ([':'] ++ ' ' :: (type.chars ++ ' ' :: '\x7b' :: s)))
      (.assignment () target.text n) rest := by
    refine (target.takes_before rfl).bind_eq ?_
    refine takes_colon.bind fun _ _ => ?_
    refine (h rest).behind_blank.bind_nil fun node hnode => takes_finish fun mark => ?_
    rw [Node.undocumented] at hnode ⊢
    rw [Node.mapDoc, hnode]
  refine Fails.choice ?_ hvalue.choice
  simpa using fails_assignment (s := s ++ rest) target type

theorem Stands.takes_behind_assignments {P : Marked → Prop}
    {ps : List (Parser Marked)} (h : Stands w (t ++ rest)) (hcolon : Fails (mark ":") (t ++ rest))
    (hps : Takes (choice ps) (' ' :: w ++ t) P rest) :
    Takes (choice (assignmentDeclaration :: assignmentOf value :: ps)) (' ' :: w ++ t) P rest := by
  have hfails : ∀ f : String → Parser Marked, Fails (pathName.bind fun a => (mark ":").bind fun _ => f a)
      (' ' :: w ++ t ++ rest) := by
    intro f
    rw [append_assoc]
    exact (h.name_fails fun _ => hcolon.bind).behind_blank
  exact (hfails _).choice ((hfails _).choice hps)

theorem takes_declared_component
    (h : TakesTree (componentUpTo bound) (type.chars ++ ' ' :: '\x7b' :: s) n rest) :
    TakesTree (declarationUpTo (bound + 1)) (' ' :: (type.chars ++ ' ' :: '\x7b' :: s)) n rest := by
  have hapart : Apart (' ' :: '\x7b' :: s ++ rest) := apart_blank
  refine takes_named ?_ ((type.stands hapart).takes_behind_assignments ?_ h.behind_blank.choice)
  · have hleading := type.leading_fails hapart
    simpa using hleading
  · exact (fails_mark rfl rfl (by decide)).behind_blank

theorem takes_many1 {p : Parser α} {P : ι → α → Prop} {first : ι} {others : List ι}
    (hitem : ∀ i t, Takes p (chars i) (P i) t) (hne : ∀ i, chars i ≠ []) (hend : Fails p rest) :
    Takes p.many1 ((first :: others).flatMap chars) (List.Forall₂ P (first :: others)) rest := by
  refine (hitem first _).bind fun a ha => ?_
  refine (takes_many (R := fun _ => True) (fun i _ t _ => hitem i t) (fun i _ => hne i) (fun _ _ _ => trivial)
    trivial hend).bind_nil fun as has => takes_pure (.cons ha has)

def Setting.decl (setting : Setting) : Decl := .assignment setting.name.path setting.value

theorem takes_scope (target : ScopeName) (first : Setting) (others : List Setting) (rest : List Char) :
    TakesDecl scopeDeclaration (.scope target first others) rest := by
  rw [TakesDecl, Decl.chars, Decl.node]
  have hend : Fails (assignmentTo plainName) ([' ', '\x7d'] ++ rest) := by
    have hs : Solid ('\x7d' :: rest) := solid_mark rfl
    have hname : Fails plainName ('\x7d' :: rest) := fails_of_misses fun _ _ hf => name_misses hf hs rfl
    exact hname.bind.behind_blank
  have hsettings : Takes (assignmentTo plainName).many1 ((first :: others).flatMap Setting.chars)
      (List.Forall₂ (fun setting node => node.undocumented = setting.node) (first :: others))
      ([' ', '\x7d'] ++ rest) :=
    takes_many1 (fun setting _ => takes_assignment setting.name setting.value)
      (fun setting => by simp [Setting.chars, assignmentChars]) hend
  refine (target.takes apart_blank).behind_blank.bind_eq ?_
  refine takes_opening.bind fun _ _ => ?_
  refine hsettings.bind fun nodes hnodes => ?_
  refine takes_closing.bind_nil fun _ _ => takes_finish fun mark => ?_
  rw [Node.undocumented, Node.mapDoc, mapDocs_of_forall₂ hnodes]

/-- An object is first read as a component, and refused for its type. -/
theorem component_fails_at_scope (bound : Nat) (target : ScopeName) (first : Setting) (others : List Setting)
    (rest : List Char) :
    Fails (componentUpTo (bound + 2)) ((Decl.scope target first others).chars ++ rest) := by
  have hne : ∀ setting ∈ first :: others, setting.chars ≠ [] := by simp [Setting.chars, assignmentChars]
  have hassignments : ∀ setting ∈ first :: others, ∀ rest,
      TakesTree (declarationUpTo (bound + 1)) setting.chars setting.decl.node rest := by
    intro setting _ rest
    have hassignment := @takes_declared_assignment rest bound setting.name.path setting.value
    rwa [TakesDecl, Decl.chars] at hassignment
  have hbody := takes_body hne hassignments rest
  have hstart : isTypeStart target.head = true := by
    simpa using alpha_of_isNameStart target.head_ok
  have hapart : Apart ([' ', '\x7b'] ++ ((first :: others).flatMap Setting.chars ++ ([' ', '\x7d'] ++ rest))) :=
    apart_blank
  have htext : (Decl.scope target first others).chars ++ rest =
      ' ' :: (target.chars ++ ([' ', '\x7b'] ++ ((first :: others).flatMap Setting.chars ++
        ([' ', '\x7d'] ++ rest)))) := by
    simp [Decl.chars]
  rw [htext, componentUpTo, componentOf]
  refine Fails.behind_blank ?_
  refine (takes_place (target.solid hapart)).bind_fails (s := []) fun start _ => ?_
  refine (target.takes_as hapart hstart (all_eq_true.mp target.tail_ok) fun _ h => h).bind_fails ?_
  rintro _ rfl
  refine takes_opening.bind_fails fun _ _ => ?_
  refine hbody.bind_fails fun _ _ => ?_
  exact takes_closing.bind_fails fun _ _ => (fails_checkType target start).bind

end QmlScript.Grammar
