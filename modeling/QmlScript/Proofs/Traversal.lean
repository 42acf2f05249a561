import QmlScript.Grammar.Source

/-!
# Properties of all parsers

A property that the parsers of words have and that the combinators keep is one of the parsers of all
expressions and declarations. `Closed fits P` says what `P` has to respect; `fits` is what is known of
the offsets where components start.
-/

namespace QmlScript.Grammar

open QmlScript.Grammar.Parser List

/-- A property of parsers of words that combinators keep. -/
structure Closed (fits : Nat → Prop) (P : ∀ {α : Type}, Parser α → Prop) : Prop where
  pure : ∀ {α : Type} (a : α), P (Pure.pure a : Parser α)
  missing : ∀ {α : Type} (lack : Lack), P (fun c notes => (.miss c.offset lack, notes) : Parser α)
  sized : ∀ {α : Type} {p : Cursor → Parser α}, (∀ c, P (p c)) → P fun c => p c c
  bind : ∀ {α β : Type} {p : Parser α} {f : α → Parser β}, P p → (∀ a, P (f a)) → P (p >>= f)
  orElse : ∀ {α : Type} {p q : Parser α}, P p → P q → P (p.orElse q)
  choice : ∀ {α : Type} {ps : List (Parser α)}, (∀ p ∈ ps, P p) → P (choice ps)
  optional : ∀ {α : Type} {p : Parser α}, P p → P p.optional
  required : ∀ {α : Type} {p : Parser α}, P p → P p.required
  tentative : ∀ {α : Type} {p : Parser α}, P p → P p.tentative
  checked : ∀ {α : Type} {p : Parser α}, P p → P p.checked
  telling : ∀ {α : Type} (lack : Lack) {p : Parser α}, P p → P (p.telling lack)
  many : ∀ {α : Type} {p : Parser α}, P p → P p.many
  token : ∀ {α : Type} (lack : Lack) (find : Text.Recogniser α), P (token lack find)
  keyword : ∀ word, P (keyword word)
  declare : P declare
  code : P code
  nullWord : P nullWord
  truthValue : P truthValue
  plainValue : P plainValue
  record : P record
  written : ∀ (text : Json → String) {q : Parser Unit}, P q →
    P (number >>= fun value => q >>= fun _ => written text value)
  listing : P listing
  place : ∀ {α : Type} {f : Nat → Parser α}, (∀ offset, fits offset → P (f offset)) → P (place >>= f)
  checkType : ∀ (type : String) {offset : Nat}, fits offset → P (checkType type offset)

namespace Closed

variable {fits : Nat → Prop} {P : ∀ {α : Type}, Parser α → Prop} (h : Closed fits P) {tighter : Parser String}

include h

theorem sepBy {p : Parser α} {sep : Parser Unit} (hp : P p) (hsep : P sep) : P (p.sepBy sep) :=
  h.bind hp fun _ => h.bind (h.many (h.bind hsep fun _ => hp)) fun _ => h.pure _

theorem mark (word : String) : P (mark word) := h.token _ _

theorem marked (word : String) {f : Unit → Parser α} (hf : P (f ())) : P (Grammar.mark word >>= f) :=
  h.bind (h.mark word) fun _ => hf

theorem requiring (word : String) {f : Unit → Parser α} (hf : P (f ())) :
    P ((Grammar.mark word).required >>= f) := h.bind (h.required (h.mark word)) fun _ => hf

theorem declared {β : Type} {p : Parser α} {f : α → Nat → β} (hp : P p) :
    P (p >>= fun a => Grammar.declare >>= fun doc => Pure.pure (f a doc)) :=
  h.bind hp fun _ => h.bind h.declare fun _ => h.pure _

theorem name (lack : Lack) (first rest : Char → Bool) : P (name lack first rest) := h.token _ _

theorem operation (operators : List String) {operand : Parser String} (ho : P operand) :
    P (operation (oneOf operators) operand) := h.bind (h.token _ _) fun _ => h.bind ho fun _ => h.pure _

theorem binaryLevel (operators : List String) (ht : P tighter) :
    P (binaryLevel operators tighter) := by
  have hstep := h.operation operators ht
  refine h.bind ht fun first => h.bind (h.tentative hstep) fun second => ?_
  cases second with
  | none => exact h.pure first
  | some second => exact h.bind (h.many hstep) fun others => h.pure _

theorem binaryLevels (levels : List (List String)) (ht : P tighter) :
    P (binaryLevels levels tighter) := by
  induction levels generalizing tighter with
  | nil => exact ht
  | cons operators levels ih => exact ih (h.binaryLevel operators ht)

section Operands

variable {expression : Parser String} (he : P expression)

include he

theorem branches : P (branches expression) :=
  h.marked "?" (h.bind he fun _ => h.marked ":" (h.bind he fun _ => h.pure _))

theorem call : P (call expression) := by
  have hargument : P (do
      Grammar.mark "."
      Grammar.mark "arg"
      Grammar.mark "("
      let argument ← expression
      Grammar.mark ")"
      return argument) :=
    h.marked "." (h.marked "arg" (h.marked "(" (h.bind he fun _ => h.marked ")" (h.pure _))))
  exact h.bind (h.name _ _ _) fun _ => h.marked "("
    (h.bind (h.optional (h.sepBy he (h.mark ","))) fun _ => h.marked ")" (h.bind (h.many hargument) fun _ => h.pure _))

theorem item : P (item expression) :=
  h.bind (h.name _ _ _) fun _ => h.marked "[" (h.bind he fun _ => h.marked "]" (h.pure _))

theorem group : P (group expression) := h.marked "(" (h.bind he fun _ => h.marked ")" (h.pure _))

theorem inParentheses : P (inParentheses expression) := h.bind he fun _ => h.pure _

end Operands

theorem member : P member := h.bind (h.name _ _ _) fun _ => h.marked "." (h.bind (h.name _ _ _) fun _ => h.pure _)

theorem operands (bound : Nat) : P (conditional bound) ∧ P (unary bound) ∧ P (operand bound) := by
  induction bound with
  | zero => exact ⟨h.missing _, h.missing _, h.missing _⟩
  | succ bound ih =>
    obtain ⟨hconditional, hunary, hoperand⟩ := ih
    refine ⟨?_, ?_, ?_⟩
    · refine h.bind (h.binaryLevels _ hunary) fun first => ?_
      refine h.bind (h.tentative (h.branches hconditional)) fun rest => ?_
      cases rest with
      | none => exact h.pure first
      | some rest => exact h.pure _
    · refine h.bind (h.tentative (h.operation _ hunary)) fun signed => ?_
      cases signed with
      | none => exact hoperand
      | some text => exact h.pure text
    · have he := h.inParentheses hconditional
      refine h.choice ?_
      simp only [forall_mem_cons, not_mem_nil, false_implies, implies_true, and_true]
      exact ⟨h.nullWord, h.bind h.truthValue fun _ => h.pure _, h.written _ (h.mark "%"),
        h.written _ (h.mark "s"), h.written Json.display (h.pure ()), h.token _ _, h.call he, h.item he,
        h.member, h.listing, h.bind (h.name _ _ _) fun _ => h.pure _, h.group he⟩

theorem checkedExpression : P checkedExpression :=
  h.checked (h.telling _ (h.sized fun c => h.inParentheses (h.operands (3 * c.left + 3)).1))

theorem names (lack : Lack) (first rest : Char → Bool) : P ((Grammar.name lack first rest).sepBy (Grammar.mark ",")) :=
  h.sepBy (h.name _ _ _) (h.mark ",")

theorem rowDeclaration : P rowDeclaration :=
  h.bind (h.keyword _) fun _ => h.bind (h.required (h.checked h.record)) fun _ => h.pure _

theorem signalDeclaration : P signalDeclaration :=
  h.bind (h.keyword _) fun _ => h.bind (h.required (h.name _ _ _)) fun _ =>
    h.declared (h.required (h.mark ";"))

theorem aliasDeclaration : P aliasDeclaration :=
  h.bind (h.keyword _) fun _ => h.bind (h.keyword _) fun _ => h.bind (h.required (h.name _ _ _)) fun _ =>
    h.requiring ":" (h.bind (h.required (h.name _ _ _)) fun _ => h.declared (h.required (h.mark ";")))

theorem choiceDeclaration : P choiceDeclaration := by
  have hdefault : P (do
      Grammar.mark ":"
      Parser.required choiceName) := h.marked ":" (h.required (h.name _ _ _))
  exact h.bind (h.keyword _) fun _ => h.bind (h.keyword _) fun _ =>
    h.bind (h.required (h.name _ _ _)) fun _ => h.requiring _ (h.bind (h.required (h.names _ _ _)) fun _ =>
      h.requiring _ (h.bind (h.optional hdefault) fun _ => h.declared (h.required (h.mark ";"))))

theorem codePropertyDeclaration : P codePropertyDeclaration :=
  h.bind (h.keyword _) fun _ => h.bind (h.keyword _) fun _ => h.bind (h.required (h.name _ _ _)) fun _ =>
    h.requiring ":" (h.declared (h.required h.code))

theorem identifierDeclaration : P identifierDeclaration :=
  h.bind (h.keyword _) fun _ => h.requiring ":" (h.bind (h.required (h.name _ _ _)) fun _ =>
    h.declared (h.required (h.mark ";")))

theorem assigned (lack : Lack) (first rest : Char → Bool) : P (do
    let target ← Grammar.name lack first rest
    Grammar.mark ":"
    let value ← Grammar.checkedExpression
    Grammar.mark ";"
    return Node.assignment (← Grammar.declare) target (.text value)) :=
  h.bind (h.name _ _ _) fun _ => h.marked ":" (h.bind h.checkedExpression fun _ => h.declared (h.mark ";"))

theorem propertyItems : P propertyItems := by
  have hvalue : P (do
      Grammar.mark ":"
      Grammar.checkedExpression) := h.marked ":" h.checkedExpression
  exact h.sepBy (h.bind (h.name _ _ _) fun _ => h.bind (h.optional hvalue) fun _ => h.pure _) (h.mark ",")

theorem scopeDeclaration : P scopeDeclaration := by
  have hvalue := h.assigned (.name "_a-z" "0-9A-Z_a-z") isNameStart isNameChar
  exact h.bind (h.name _ _ _) fun _ => h.marked _ (h.bind
    (h.bind hvalue fun _ => h.bind (h.many hvalue) fun _ => h.pure _) fun _ => h.declared (h.mark _))

theorem handlerDeclaration : P handlerDeclaration := by
  have hargs : P (do
      Grammar.mark "("
      let args ← plainNames
      Grammar.mark ")"
      return args) := h.marked "(" (h.bind (h.names _ _ _) fun _ => h.marked ")" (h.pure _))
  exact h.bind (h.optional (h.keyword _)) fun _ => h.bind (h.names _ _ _) fun _ =>
    h.bind (h.optional hargs) fun _ => h.marked ":" (h.declared h.code)

theorem functionDeclaration : P functionDeclaration :=
  h.bind (h.optional (h.keyword _)) fun _ => h.bind (h.keyword _) fun _ =>
    h.bind (h.required (h.name _ _ _)) fun _ => h.requiring "("
      (h.bind (h.required (h.optional (h.names _ _ _))) fun _ => h.requiring ")" (h.declared (h.required h.code)))

theorem constantDeclaration : P constantDeclaration :=
  h.bind (h.keyword _) fun _ => h.bind (h.name _ _ _) fun _ => h.bind (h.name _ _ _) fun _ =>
    h.marked ":" (h.bind (h.checked h.plainValue) fun _ => h.declared (h.mark ";"))

theorem declarations (bound : Nat) : P (componentUpTo bound) ∧ P (declarationUpTo bound) := by
  induction bound with
  | zero => exact ⟨h.missing _, h.missing _⟩
  | succ bound ih =>
    obtain ⟨hcomponent, hdeclaration⟩ := ih
    constructor
    · exact h.place fun offset hoffset => h.bind (h.name _ _ _) fun _ => h.marked _
        (h.bind (h.many hdeclaration) fun _ => h.marked _ (h.declared (h.checkType _ hoffset)))
    · have hvalues : P (do
          Grammar.keyword "property"
          let type ← propertyType
          let items ← Grammar.propertyItems
          Grammar.mark ";"
          return (type, items)) :=
        h.bind (h.keyword _) fun _ => h.bind (h.name _ _ _) fun _ => h.bind h.propertyItems fun _ =>
          h.marked ";" (h.pure _)
      have hvalue : P (do
          Grammar.keyword "property"
          let type ← propertyType
          let name ← plainName
          Grammar.mark ":"
          let value ← componentUpTo bound
          return (type, [(name, value)])) :=
        h.bind (h.keyword _) fun _ => h.bind (h.name _ _ _) fun _ => h.bind (h.name _ _ _) fun _ =>
          h.marked ":" (h.bind hcomponent fun _ => h.pure _)
      refine h.choice ?_
      simp only [forall_mem_cons, not_mem_nil, false_implies, implies_true, and_true]
      exact ⟨h.rowDeclaration,
        h.bind (h.keyword _) fun _ => h.bind (h.required (h.keyword _)) fun _ =>
          h.bind (h.required (h.names _ _ _)) fun _ => h.requiring _
            (h.bind (h.required hcomponent) fun _ => h.declared (h.required (h.mark _))),
        h.signalDeclaration, h.aliasDeclaration, h.choiceDeclaration, h.codePropertyDeclaration,
        h.declared (h.orElse hvalues hvalue), h.identifierDeclaration, h.assigned _ _ _,
        h.bind (h.name _ _ _) fun _ => h.marked ":" (h.declared hcomponent), hcomponent,
        h.handlerDeclaration, h.functionDeclaration, h.scopeDeclaration, h.constantDeclaration⟩

theorem component : P component :=
  h.sized (p := fun c => componentUpTo (3 * c.left + 3)) fun c => (h.declarations (3 * c.left + 3)).1

end Closed

end QmlScript.Grammar
