import QmlScript.Proofs.Declaration.Named

/-!
# Handlers and functions

A function starts with a keyword that the grammar would also take for a name, and a handler with one name and
no arguments looks like an assignment up to its block, which neither an expression nor a component starts
with.
-/

namespace QmlScript.Grammar

open QmlScript.Grammar.Parser List

variable {s t u v w rest : List Char} {bound : Nat} {P : Marked → Prop}

def methodAlternatives : List (Parser Marked) :=
  [handlerDeclaration, functionDeclaration, scopeDeclaration, constantDeclaration]

theorem handlerDeclaration_eq :
    handlerDeclaration = (optional (keyword "async")).bind fun async => handlerOf async.isSome := rfl

theorem functionDeclaration_eq :
    functionDeclaration = (optional (keyword "async")).bind fun async => functionOf async.isSome := rfl

theorem takes_async (async : Bool) (h : Fails (keyword "async") (' ' :: s)) :
    Takes (optional (keyword "async")) (asyncChars async) (fun o => o.isSome = async) (' ' :: s) := by
  cases async with
  | false =>
    refine h.optional.mono ?_
    rintro _ rfl
    rfl
  | true =>
    refine (takes_opener rfl).optional.mono ?_
    rintro _ ⟨a, rfl, -⟩
    rfl

theorem takes_arguments (args : List PlainName) :
    Takes (optional plainNames) (argumentChars args) (fun o => o.getD [] = args.map Ident.text) (')' :: rest) := by
  cases args with
  | nil =>
    have hname : Fails plainName (')' :: rest) :=
      fails_of_misses fun _ _ hf => name_misses hf (solid_mark rfl) rfl
    refine hname.bind.optional.mono ?_
    rintro _ rfl
    rfl
  | cons first others =>
    refine (takes_names (apart_mark rfl) (fails_mark rfl rfl (by decide)) first others).optional.mono ?_
    rintro _ ⟨a, rfl, rfl⟩
    rfl

theorem Stands.handler_fails (h : Stands w rest) (async : Bool)
    (hmark : ∀ {word : String} {x : Char}, word.toList = [x] → x ∈ [',', '(', ':'] → Fails (mark word) rest) :
    Fails (handlerOf async) (' ' :: w ++ rest) := by
  have hcomma : Fails (mark ",") rest := hmark rfl (by decide)
  have hparen : Fails (mark "(") rest := hmark rfl (by decide)
  have hcolon : Fails (mark ":") rest := hmark rfl (by decide)
  refine Fails.behind_blank ?_
  rcases h.takes_or_fails _ isNameStart with htakes | hfails
  · have hnames : Takes pathNames w (fun _ => True) rest :=
      htakes.bind_nil fun _ _ => hcomma.bind.many.bind_nil fun _ _ => takes_pure trivial
    refine hnames.bind_fails fun _ _ => ?_
    exact hparen.bind.optional.bind_fails (s := []) fun _ _ => hcolon.bind
  · exact hfails.bind.bind

theorem takes_worded {word : String} (hword : openers.contains word = true)
    (hdiffer : ∀ other ∈ leading, differ other word = true) (h : Stands u (v ++ rest))
    (hmethod : Takes (choice methodAlternatives) (' ' :: word.toList ++ (' ' :: u ++ v)) P rest) :
    Takes (declarationUpTo (bound + 1)) (' ' :: word.toList ++ (' ' :: u ++ v)) P rest := by
  have hstands : Stands word.toList ((' ' :: u ++ v) ++ rest) := stands_opener hword apart_blank
  have hmark : ∀ {word' : String} {x : Char}, word'.toList = [x] → isMark x = true →
      Fails (mark word') ((' ' :: u ++ v) ++ rest) := by
    intro word' x hword' hx
    rw [append_assoc]
    exact (h.fails_mark hword' hx).behind_blank
  have hcomponent : Fails (componentUpTo bound) (' ' :: word.toList ++ (' ' :: u ++ v) ++ rest) := by
    rw [append_assoc]
    exact (hstands.component_fails (hmark rfl rfl)).behind_blank
  exact takes_named (fun other hother => fails_opener (hdiffer other hother))
    (hstands.takes_behind_assignments (hmark rfl rfl) (hcomponent.choice hmethod))

theorem isMark_of_mem {x : Char} (h : x ∈ [',', '(', ':']) : isMark x = true ∧ x ≠ '\x7b' := by
  simp only [mem_cons, not_mem_nil, or_false] at h
  rcases h with rfl | rfl | rfl <;> decide

theorem takes_function (async : Bool) (w : PathName) (args : List PlainName) (b : Block) :
    TakesDecl (declarationUpTo (bound + 1)) (.function async w args b) rest := by
  rw [TakesDecl, Decl.chars, Decl.node]
  have hname : Stands w.chars (functionTail args b ++ rest) := w.stands (apart_mark rfl)
  have hword : Stands "function".toList ((' ' :: w.chars ++ functionTail args b) ++ rest) :=
    stands_opener rfl apart_blank
  have hasync : Takes (optional (keyword "async")) (asyncChars async) (fun o => o.isSome = async)
      ((' ' :: "function".toList ++ (' ' :: w.chars ++ functionTail args b)) ++ rest) :=
    takes_async async (fails_opener rfl)
  have hhandler : Fails handlerDeclaration (asyncChars async ++
      ((' ' :: "function".toList ++ (' ' :: w.chars ++ functionTail args b)) ++ rest)) := by
    rw [handlerDeclaration_eq]
    refine hasync.bind_fails fun o _ => ?_
    rw [append_assoc]
    refine hword.handler_fails o.isSome fun hword' hx => ?_
    rw [append_assoc]
    exact (hname.fails_mark hword' (isMark_of_mem hx).1).behind_blank
  have hmethod : TakesTree (choice methodAlternatives)
      (asyncChars async ++ (' ' :: "function".toList ++ (' ' :: w.chars ++ functionTail args b)))
      (.method () [w.text] (args.map Ident.text) b.text false async) rest := by
    refine Fails.choice ?_ (Takes.choice ?_)
    · rw [append_assoc]
      exact hhandler
    · rw [functionDeclaration_eq]
      refine hasync.bind fun o ho => ?_
      rw [ho]
      refine (takes_opener rfl).bind fun _ _ => ?_
      refine (w.takes_before rfl).required.bind_eq ?_
      refine (takes_mark rfl rfl).required.bind fun _ _ => ?_
      refine (takes_arguments args).required.bind fun o ho => ?_
      refine (takes_mark rfl rfl).required.bind fun _ _ => ?_
      refine b.takes.behind_blank.required.bind_nil ?_
      rintro _ rfl
      exact takes_finish fun mark => by rw [ho]; rfl
  cases async with
  | false => exact takes_worded rfl (by decide) hname hmethod
  | true => exact takes_worded rfl (by decide) hword hmethod

theorem takes_handlerArguments (args : List PlainName) :
    Takes (optional parenthesisedNames) (handlerArguments args) (fun o => o.getD [] = args.map Ident.text)
      (':' :: rest) := by
  cases args with
  | nil =>
    have hparen : Fails (mark "(") (':' :: rest) := fails_mark rfl rfl (by decide)
    refine hparen.bind.optional.mono ?_
    rintro _ rfl
    rfl
  | cons first others =>
    have hnames : Takes plainNames (listed (fun w : PlainName => w.chars) first others)
        (· = (first :: others).map Ident.text) (')' :: (':' :: rest)) :=
      takes_names (apart_mark rfl) (fails_mark rfl rfl (by decide)) first others
    have hargs : Takes parenthesisedNames (handlerArguments (first :: others))
        (· = (first :: others).map Ident.text) (':' :: rest) := by
      refine (takes_mark rfl rfl).bind fun _ _ => ?_
      refine hnames.bind_eq ?_
      exact (takes_mark rfl rfl).bind_nil fun _ _ => takes_pure rfl
    refine hargs.optional.mono ?_
    rintro _ ⟨a, rfl, rfl⟩
    rfl

/-- Behind its first name, a handler goes on with its block or with a mark of no assignment. -/
theorem handler_cases (others : List PathName) (args : List PlainName) (b : Block) :
    ((others.flatMap fun w => [',', ' '] ++ w.chars) ++ handlerTail args b = [':'] ++ ' ' :: b.chars) ∨
      ∃ x t, (others.flatMap fun w => [',', ' '] ++ w.chars) ++ handlerTail args b = x :: t ∧ (x = ',' ∨ x = '(') := by
  cases others with
  | cons w others => exact .inr ⟨_, _, rfl, .inl rfl⟩
  | nil =>
    cases args with
    | nil => exact .inl rfl
    | cons first args => exact .inr ⟨_, _, rfl, .inr rfl⟩

theorem takes_handlerOf (async : Bool) (first : PathName) (others : List PathName) (args : List PlainName) (b : Block) :
    TakesTree (handlerOf async)
      (' ' :: first.chars ++ ((others.flatMap fun w => [',', ' '] ++ w.chars) ++ handlerTail args b))
      (.method () ((first :: others).map Ident.text) (args.map Ident.text) b.text true async) rest := by
  have htail : ∃ x t, handlerTail args b = x :: t ∧ isMark x = true ∧ ',' ≠ x := by
    cases args with
    | nil | cons first args => exact ⟨_, _, rfl, rfl, by decide⟩
  have hnames : Takes pathNames (' ' :: listed (fun w : PathName => w.chars) first others)
      (· = (first :: others).map Ident.text) (handlerTail args b ++ rest) := by
    obtain ⟨x, t, htail, hx, hcomma⟩ := htail
    rw [htail]
    exact (takes_names (apart_mark hx) (fails_mark rfl hx hcomma) first others).behind_blank
  rw [← append_assoc]
  refine hnames.bind_eq ?_
  refine (takes_handlerArguments args).bind fun o ho => ?_
  refine takes_colon.bind fun _ _ => ?_
  refine b.takes.behind_blank.bind_nil ?_
  rintro _ rfl
  refine takes_finish fun mark => ?_
  rw [ho]
  rfl

theorem expression_fails_at_brace : Fails checkedExpression ('\x7b' :: s) := by
  intro c notes hf hfault
  obtain ⟨offset, lack, hmiss⟩ := checkedExpression_misses (conditional_misses (unary_misses (by decide) hf)) hfault
  exact ⟨offset, lack, notes, hmiss, hfault⟩

theorem component_fails_at_brace : Fails (componentUpTo bound) ('\x7b' :: s) := by
  cases bound with
  | zero => exact fun c notes _ hfault => ⟨_, _, notes, rfl, hfault⟩
  | succ bound =>
    have hsolid : Solid ('\x7b' :: s) := solid_mark rfl
    have htype : Fails componentType ('\x7b' :: s) := fails_of_misses fun _ _ hf => name_misses hf hsolid rfl
    rw [componentUpTo, componentOf]
    exact (takes_place hsolid).bind_fails (s := []) fun _ _ => htype.bind

/-- What follows the first name of a handler starts no value and no body. -/
theorem takes_named_handler (w : PathName) {b : Block}
    (ht : t = [':'] ++ ' ' :: b.chars ∨ ∃ x u, t = x :: u ∧ (x = ',' ∨ x = '('))
    (hmethod : Takes (choice methodAlternatives) (' ' :: w.chars ++ t) P rest) :
    Takes (declarationUpTo (bound + 1)) (' ' :: w.chars ++ t) P rest := by
  have hmark : ∃ x u, t = x :: u ∧ isMark x = true ∧ '\x7b' ≠ x := by
    rcases ht with rfl | ⟨x, u, rfl, rfl | rfl⟩ <;> exact ⟨_, _, rfl, rfl, by decide⟩
  obtain ⟨x, u, rfl, hx, hbrace⟩ := hmark
  have hstands : Stands w.chars (x :: u ++ rest) := w.stands (apart_mark hx)
  have hcomponent : Fails (componentUpTo bound) (' ' :: w.chars ++ x :: u ++ rest) := by
    rw [append_assoc]
    exact (hstands.component_fails (fails_mark rfl hx hbrace)).behind_blank
  have hleading : ∀ word ∈ leading, Fails (keyword word) (' ' :: w.chars ++ x :: u ++ rest) := by
    rw [append_assoc]
    exact w.leading_fails (apart_mark hx)
  refine takes_named hleading ?_
  rcases ht with hcolon | ⟨y, v, hother, hy⟩
  · -- the block is tried as an expression and as a component
    have hvalue : ∀ f : String → Parser Marked, (∀ a, Fails (f a) (' ' :: b.chars ++ rest)) →
        Fails (pathName.bind fun a => (mark ":").bind fun _ => f a) (' ' :: w.chars ++ x :: u ++ rest) := by
      intro f hf
      rw [hcolon, append_assoc]
      exact (w.takes_before rfl).bind_fails fun a _ => takes_colon.bind_fails fun _ _ => hf a
    refine (hvalue _ fun _ => ?_).choice ((hvalue _ fun _ => ?_).choice (hcomponent.choice hmethod))
    · exact expression_fails_at_brace.behind_blank.bind
    · exact component_fails_at_brace.behind_blank.bind
  · have hcolon : Fails (mark ":") (x :: u ++ rest) := by
      rw [hother]
      rcases hy with rfl | rfl <;> exact fails_mark rfl rfl (by decide)
    exact hstands.takes_behind_assignments hcolon (hcomponent.choice hmethod)

theorem takes_handler (async : Bool) (first : PathName) (others : List PathName) (args : List PlainName) (b : Block) :
    TakesDecl (declarationUpTo (bound + 1)) (.handler async first others args b) rest := by
  have htail := handler_cases others args b
  have hhandler := @takes_handlerOf rest async first others args b
  rw [TakesDecl, Decl.chars, Decl.node, listed, ← cons_append, append_assoc]
  generalize (others.flatMap fun w => [',', ' '] ++ w.chars) ++ handlerTail args b = t at htail hhandler
  have hapart : Apart (t ++ rest) := by
    rcases htail with rfl | ⟨x, u, rfl, rfl | rfl⟩ <;> exact apart_mark rfl
  have hasync : Takes (optional (keyword "async")) (asyncChars async) (fun o => o.isSome = async)
      ((' ' :: first.chars ++ t) ++ rest) := by
    rw [append_assoc]
    exact takes_async async (first.keyword_fails hapart (by decide)).behind_blank
  have hmethod : TakesTree (choice methodAlternatives) (asyncChars async ++ (' ' :: first.chars ++ t))
      (.method () ((first :: others).map Ident.text) (args.map Ident.text) b.text true async) rest := by
    refine Takes.choice ?_
    rw [handlerDeclaration_eq]
    refine hasync.bind fun o ho => ?_
    rw [ho]
    exact hhandler
  cases async with
  | false => exact takes_named_handler first htail hmethod
  | true => exact takes_worded rfl (by decide) (first.stands hapart) hmethod

theorem takes_declared_scope (target : ScopeName) (first : Setting) (others : List Setting) :
    TakesDecl (declarationUpTo (bound + 3)) (.scope target first others) rest := by
  have hcomponent := component_fails_at_scope bound target first others rest
  have hscope := takes_scope target first others rest
  rw [TakesDecl, Decl.chars, Decl.node] at hscope ⊢
  rw [Decl.chars] at hcomponent
  generalize (first :: others).flatMap Setting.chars ++ [' ', '\x7d'] = t at hcomponent hscope ⊢
  have hstands : Stands target.chars (([' ', '\x7b'] ++ t) ++ rest) := target.stands apart_blank
  have hbrace : ∀ {word : String} {x : Char}, word.toList = [x] → x ∈ [',', '(', ':'] →
      Fails (mark word) (([' ', '\x7b'] ++ t) ++ rest) := fun hword hx =>
    (fails_mark hword rfl (isMark_of_mem hx).2).behind_blank
  have hkeyword : ∀ word ∈ keywords, Fails (keyword word) (' ' :: target.chars ++ ([' ', '\x7b'] ++ t) ++ rest) := by
    intro word hword
    rw [append_assoc]
    exact (target.keyword_fails apart_blank hword).behind_blank
  have hasync : Takes (optional (keyword "async")) [] (fun _ => True)
      (' ' :: target.chars ++ ([' ', '\x7b'] ++ t) ++ rest) :=
    (hkeyword "async" (by decide)).optional.mono fun _ _ => trivial
  have hhandler : Fails handlerDeclaration (' ' :: target.chars ++ ([' ', '\x7b'] ++ t) ++ rest) := by
    rw [handlerDeclaration_eq]
    refine hasync.bind_fails (s := []) fun o _ => ?_
    rw [append_assoc]
    exact hstands.handler_fails o.isSome hbrace
  have hfunction : Fails functionDeclaration (' ' :: target.chars ++ ([' ', '\x7b'] ++ t) ++ rest) :=
    hasync.bind_fails (s := []) fun _ _ => (hkeyword "function" (by decide)).bind
  have hleading : ∀ word ∈ leading, word ∈ keywords := by decide
  refine takes_named (fun word hword => hkeyword word (hleading word hword)) ?_
  refine hstands.takes_behind_assignments (hbrace rfl (by decide)) (hcomponent.choice ?_)
  exact hhandler.choice (hfunction.choice hscope.choice)

end QmlScript.Grammar
