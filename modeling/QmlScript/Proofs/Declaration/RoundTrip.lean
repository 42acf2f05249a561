import QmlScript.Proofs.Declaration.Method

/-!
# Printed declarations are read back

A component written down as a text, with declarations of every kind nested to any depth, is parsed as the
tree that it stands for.
-/

namespace QmlScript.Grammar

open QmlScript.Grammar.Parser List

variable {s t rest : List Char} {bound : Nat} {P : Marked → Prop} {n : Node Unit}

theorem takes_declared_signal (w : PlainName) : TakesDecl (declarationUpTo (bound + 1)) (.signal w) rest := by
  rw [TakesDecl, Decl.chars, Decl.node, declarationUpTo_succ]
  refine Fails.choice (fails_opener rfl).bind ?_
  refine Fails.choice (fails_opener rfl).bind (Takes.choice ?_)
  refine (takes_opener rfl).bind fun _ _ => ?_
  refine (w.takes_before rfl).required.bind_eq ?_
  exact takes_ended fun _ => rfl

theorem takes_declared_identifier (w : PlainName) : TakesDecl (declarationUpTo (bound + 1)) (.identifier w) rest := by
  have hproperty : Fails (keyword "property") (' ' :: "id".toList ++ ([':'] ++ (' ' :: w.chars ++ [';'])) ++ rest) :=
    fails_opener rfl
  rw [TakesDecl, Decl.chars, Decl.node, declarationUpTo_succ]
  refine Fails.choice (fails_opener rfl).bind ?_
  refine Fails.choice (fails_opener rfl).bind ?_
  refine Fails.choice (fails_opener rfl).bind ?_
  refine hproperty.bind.choice (hproperty.bind.choice (hproperty.bind.choice ?_))
  refine (hproperty.bind.or hproperty.bind).bind.choice (Takes.choice ?_)
  refine (takes_opener_before rfl rfl).bind fun _ _ => ?_
  refine takes_colon.required.bind fun _ _ => ?_
  refine (w.takes_before rfl).required.bind_eq ?_
  exact takes_ended fun _ => rfl

/-- At the keyword of properties, their kinds are tried in order. -/
theorem takes_declared_property
    (h : Takes (choice ([aliasDeclaration, choiceDeclaration, codePropertyDeclaration,
      propertyOf (componentUpTo bound), identifierDeclaration] ++ namedAlternatives (componentUpTo bound)))
      (propertyChars s t) P rest) :
    Takes (declarationUpTo (bound + 1)) (propertyChars s t) P rest := by
  rw [declarationUpTo_succ]
  refine Fails.choice (fails_opener rfl).bind ?_
  refine Fails.choice (fails_opener rfl).bind ?_
  exact Fails.choice (fails_opener rfl).bind h

theorem fails_kind {kind : String} {f : Unit → Parser Marked} (h : Fails (keyword kind) (' ' :: s ++ t ++ rest)) :
    Fails ((keyword "property").bind fun _ => (keyword kind).bind f) (propertyChars s t ++ rest) := by
  rw [propertyChars, append_assoc]
  exact (takes_opener rfl).bind_fails fun _ _ => h.bind

theorem takes_typed_property (type : PropertyType)
    (h : Takes (propertyOf (componentUpTo bound)) (propertyChars type.chars (' ' :: s)) P rest) :
    Takes (declarationUpTo (bound + 1)) (propertyChars type.chars (' ' :: s)) P rest := by
  have hkind : ∀ kind ∈ keywords, Fails (keyword kind) (' ' :: type.chars ++ ' ' :: s ++ rest) := by
    intro kind hkind
    rw [append_assoc]
    exact (type.keyword_fails apart_blank hkind).behind_blank
  refine takes_declared_property ?_
  refine Fails.choice (fails_kind (hkind "alias" (by decide))) ?_
  refine Fails.choice (fails_kind (hkind "enum" (by decide))) ?_
  exact Fails.choice (fails_kind (hkind "const" (by decide))) h.choice

theorem takes_declared_alias (w : PlainName) (target : PathName) :
    TakesDecl (declarationUpTo (bound + 1)) (.alias w target) rest := by
  rw [TakesDecl, Decl.chars, Decl.node]
  refine takes_declared_property (Takes.choice ?_)
  refine (takes_opener rfl).bind fun _ _ => ?_
  refine (takes_opener rfl).bind fun _ _ => ?_
  refine (w.takes_before rfl).required.bind_eq ?_
  refine takes_colon.required.bind fun _ _ => ?_
  refine (target.takes_before rfl).required.bind_eq ?_
  exact takes_ended fun _ => rfl

theorem takes_declared_choice (w : PlainName) (first : ChoiceName) (others : List ChoiceName)
    (default : Option ChoiceName) :
    TakesDecl (declarationUpTo (bound + 1)) (.choice w first others default) rest := by
  rw [TakesDecl, Decl.chars, Decl.node]
  refine takes_declared_property (Fails.choice (fails_kind (fails_opener rfl)) (Takes.choice ?_))
  refine (takes_opener rfl).bind fun _ _ => ?_
  refine (takes_opener rfl).bind fun _ _ => ?_
  refine (w.takes apart_blank).behind_blank.required.bind_eq ?_
  refine takes_opening.required.bind fun _ _ => ?_
  refine (takes_listing_before rfl (by decide) first others).required.bind_eq ?_
  refine takes_closing.required.bind fun _ _ => ?_
  refine (takes_given default (fun w => (w.takes_before rfl).required) (fails_mark rfl rfl (by decide))).bind_eq ?_
  exact takes_ended fun _ => rfl

theorem takes_declared_computed (w : PlainName) (b : Block) :
    TakesDecl (declarationUpTo (bound + 1)) (.computed w b) rest := by
  rw [TakesDecl, Decl.chars, Decl.node]
  refine takes_declared_property (Fails.choice (fails_kind (fails_opener rfl)) ?_)
  refine Fails.choice (fails_kind (fails_opener rfl)) (Takes.choice ?_)
  refine (takes_opener rfl).bind fun _ _ => ?_
  refine (takes_opener rfl).bind fun _ _ => ?_
  refine (w.takes_before rfl).required.bind_eq ?_
  refine takes_colon.required.bind fun _ _ => ?_
  refine b.takes.behind_blank.required.bind_nil ?_
  rintro _ rfl
  exact takes_finish fun _ => rfl

theorem takes_declared_behavior (first : PathName) (others : List PathName)
    (h : ∀ rest, TakesTree (componentUpTo bound) s n rest) :
    TakesTree (declarationUpTo (bound + 1)) (' ' :: "Behavior".toList ++ (' ' :: "on".toList ++
        (' ' :: listed (fun w : PathName => w.chars) first others ++ ([' ', '\x7b'] ++ (' ' :: s ++ [' ', '\x7d'])))))
      (.behavior () ((first :: others).map Ident.text) n) rest := by
  rw [declarationUpTo_succ]
  refine Fails.choice (fails_opener rfl).bind (Takes.choice ?_)
  refine (takes_opener rfl).bind fun _ _ => ?_
  refine (takes_opener rfl).required.bind fun _ _ => ?_
  refine (takes_listing_before rfl (by decide) first others).required.bind_eq ?_
  refine takes_opening.required.bind fun _ _ => ?_
  refine (h _).behind_blank.required.bind fun animation ha => ?_
  refine takes_closing.required.bind_nil fun _ _ => takes_finish fun mark => ?_
  rw [Node.undocumented, Node.mapDoc]
  exact congrArg _ ha

/-- A bound of the length of the text is enough for nested components. -/
theorem takes_component_within (type : TypeName) {body : List Decl}
    (heach : ∀ bound, (bodyText body).length < bound → ∀ d ∈ body, ∀ rest, TakesDecl (declarationUpTo bound) d rest)
    (h : (componentChars type (bodyText body)).length ≤ bound) (rest : List Char) :
    TakesTree (componentUpTo bound) (componentChars type (bodyText body))
      (.component () type.text (bodyNodes body)) rest := by
  simp only [componentChars, length_append, length_cons] at h
  obtain ⟨bound, rfl⟩ : ∃ b, bound = b + 1 := ⟨bound - 1, by omega⟩
  have hbody := heach bound (by omega)
  rw [bodyText_eq, bodyNodes_eq]
  exact takes_component_of (fun d _ => d.chars_ne_nil) hbody

mutual

theorem Decl.takes (d : Decl) (bound : Nat) (rest : List Char) (h : d.chars.length < bound) :
    TakesDecl (declarationUpTo bound) d rest := by
  obtain ⟨bound, rfl⟩ : ∃ b, bound = b + 1 := ⟨bound - 1, by omega⟩
  match d with
  | .signal w => exact takes_declared_signal w
  | .identifier w => exact takes_declared_identifier w
  | .alias w target => exact takes_declared_alias w target
  | .choice w first others default => exact takes_declared_choice w first others default
  | .computed w b => exact takes_declared_computed w b
  | .properties type first others =>
    have hproperties := takes_properties (componentUpTo bound) type first others rest
    rw [TakesDecl, Decl.chars] at hproperties ⊢
    exact takes_typed_property type hproperties
  | .assignment target v => exact takes_declared_assignment target v
  | .handler async first others args b => exact takes_handler async first others args b
  | .function async w args b => exact takes_function async w args b
  | .scope target first others =>
    obtain ⟨bound, rfl⟩ : ∃ b, bound = b + 2 := ⟨bound - 2, by simp [Decl.chars] at h; omega⟩
    exact takes_declared_scope target first others
  | .component type body =>
    rw [Decl.chars] at h
    rw [TakesDecl, Decl.chars]
    rw [length_cons] at h
    exact takes_declared_component (takes_component_within type (takes_each body) (by omega) rest)
  | .object type w value body =>
    rw [Decl.chars] at h
    rw [TakesDecl, Decl.chars]
    simp only [propertyChars, length_append, length_cons] at h
    have hbound : (componentChars value.toTypeName (bodyText body)).length ≤ bound := by omega
    have hvalue := takes_component_within value.toTypeName (takes_each body) hbound
    exact takes_typed_property type (takes_object type w value hvalue)
  | .assigned target value body =>
    rw [Decl.chars] at h
    rw [TakesDecl, Decl.chars]
    simp only [length_append, length_cons] at h
    have hbound : (componentChars value.toTypeName (bodyText body)).length ≤ bound := by omega
    have hvalue := takes_component_within value.toTypeName (takes_each body) hbound
    refine takes_named ?_ (takes_assigned target value hvalue)
    rw [append_assoc]
    exact target.leading_fails (apart_mark rfl)
  | .behavior first others type body =>
    rw [Decl.chars] at h
    rw [TakesDecl, Decl.chars]
    simp only [length_append, length_cons] at h
    exact takes_declared_behavior first others (takes_component_within type (takes_each body) (by omega))

theorem takes_each (body : List Decl) (bound : Nat) (h : (bodyText body).length < bound) :
    ∀ d ∈ body, ∀ rest, TakesDecl (declarationUpTo bound) d rest := by
  match body with
  | [] => simp
  | d :: body =>
    rw [bodyText, length_append] at h
    intro d' hd rest
    rcases mem_cons.mp hd with heq | hd
    · rw [heq]
      exact d.takes bound rest (by omega)
    · exact takes_each body bound (by omega) d' hd rest

end

def printed (type : TypeName) (body : List Decl) : String :=
  String.ofList (componentChars type (bodyText body))

theorem source_of_takes (history : History) {text : List Char}
    (h : ∀ bound, text.length ≤ bound → TakesTree (componentUpTo bound) text n []) :
    ∃ tree c notes, source (.ofText (String.ofList text).toList) history.start = (.done tree c, notes) ∧
      tree.undocumented = n ∧ notes.fault = none := by
  have hat := at_ofText text
  have hcomponent := h (3 * (Cursor.ofText text).left + 3) (by rw [hat.left]; omega)
  rw [String.toList_ofList]
  generalize Cursor.ofText text = c at hat hcomponent
  have hf : c.Faces (text ++ []) := by
    rw [append_nil]
    exact hat.faces
  obtain ⟨tree, c', notes, hdone, htree, hend, hfault⟩ := hcomponent c history.start hf rfl
  have hplace : place c' notes = (.done (c'.reach []).offset (c'.reach []), notes) := place_eq hend solid_nil
  have hahead : (c'.reach []).ahead = [] := hend.reach_head.ahead
  refine ⟨tree, c'.reach [], notes, ?_, htree, hfault⟩
  rw [source, bind_eq, bind_done (p := component) hdone]
  refine (bind_done hplace).trans ?_
  simp [hahead]

theorem source_printed (history : History) (type : TypeName) (body : List Decl) :
    ∃ tree c notes, source (.ofText (printed type body).toList) history.start = (.done tree c, notes) ∧
      tree.undocumented = .component () type.text (bodyNodes body) ∧ notes.fault = none :=
  source_of_takes history fun _ hbound => takes_component_within type (takes_each body) hbound []

/-- A printed component is parsed as the tree that it was printed from, whatever documentation waits. -/
theorem parse_printed (history : History) (type : TypeName) (body : List Decl) :
    (parse history (printed type body)).result.map Node.undocumented =
      .ok (.component () type.text (bodyNodes body)) := by
  obtain ⟨tree, c, notes, hsource, htree, hfault⟩ := source_printed history type body
  rw [parse_result_of_done hsource hfault, Except.map, Notes.undocumented_resolve, htree]

/-- The bodies of six components, with declarations of every kind. -/
def everyKind : List (List Decl) :=
  let x : PlainName := ⟨⟨'x', [], rfl, rfl⟩, by decide⟩
  let y : PlainName := ⟨⟨'y', [], rfl, rfl⟩, by decide⟩
  let path : PathName := ⟨⟨'a', ['.', 'b'], rfl, rfl⟩, by decide⟩
  let int : PropertyType := ⟨⟨'i', ['n', 't'], rfl, rfl⟩, by decide⟩
  let lazy : PropertyType := ⟨⟨'l', ['a', 'z', 'y'], rfl, rfl⟩, by decide⟩
  let type : TypeName := ⟨⟨⟨'u', ['.', 'T'], rfl, rfl⟩, by decide⟩, rfl⟩
  let view : ValueType := ⟨⟨⟨⟨'V', [], rfl, rfl⟩, by decide⟩, rfl⟩, rfl⟩
  let up : ChoiceName := ⟨⟨'U', ['p'], rfl, rfl⟩, by decide⟩
  let down : ChoiceName := ⟨⟨'D', [], rfl, rfl⟩, by decide⟩
  let name : ValueName := ⟨⟨⟨'x', ['.', 'y'], rfl, rfl⟩, by decide⟩, rfl, rfl⟩
  let quoted : Literal := ⟨'"', ['\x7d', '\\', '"'], rfl, rfl⟩
  let object : ScopeName := ⟨⟨⟨'f', [], rfl, rfl⟩, by decide⟩, rfl⟩
  let code : Block := ⟨"'\x7d'/*'*/\x7d".toList, by decide +kernel⟩
  let empty : Block := ⟨['\x7d'], by decide⟩
  [[.identifier x, .signal y, .properties int ⟨x, some (.number (-5) (by decide +kernel))⟩ [⟨y, none⟩],
      .alias x path],
    [.choice x up [down] (some down), .computed x code],
    [.object lazy x view [.component type [.signal x]], .assigned path view []],
    [.assignment x.path (.name name), .behavior x.path [y.path] type [],
      .scope object ⟨x, .quoted quoted⟩ [⟨y, .name name⟩]],
    [.handler true path [x.path] [x, y] empty, .handler false path [] [] code],
    [.function false path [] code, .function true path [x, y] empty]]

def plainType : TypeName := ⟨⟨⟨'P', [], rfl, rfl⟩, by decide⟩, rfl⟩

set_option maxRecDepth 5000 in
theorem parse_everyKind :
    everyKind.map (printed plainType) =
        ["P \x7b id: x; signal y; property int x: -5, y; property alias x: a.b; \x7d",
          "P \x7b property enum x \x7b Up, D \x7d: D; property const x: \x7b'\x7d'/*'*/\x7d \x7d",
          "P \x7b property lazy x: V \x7b u.T \x7b signal x; \x7d \x7d a.b: V \x7b \x7d \x7d",
          "P \x7b x: x.y; Behavior on x, y \x7b u.T \x7b \x7d \x7d f \x7b x: \"\x7d\\\"\"; y: x.y; \x7d \x7d",
          "P \x7b async a.b, x(x, y): \x7b\x7d a.b: \x7b'\x7d'/*'*/\x7d \x7d",
          "P \x7b function a.b() \x7b'\x7d'/*'*/\x7d async function a.b(x, y) \x7b\x7d \x7d"] ∧
      everyKind.map (fun body => (parse {} (printed plainType body)).result.map Node.undocumented) =
        [.ok (.component () "P" [.identifier () "x", .signal () "y",
            .property () "int" [("x", .text "(- 5)"), ("y", .absent)], .alias () "x" "a.b"]),
          .ok (.component () "P" [.choice () "x" ["Up", "D"] (some "D"),
            .property () "const" [("x", .text "\x7b'\x7d'/*'*/\x7d")]]),
          .ok (.component () "P" [
            .property () "lazy" [("x", .component () "V" [.component () "u.T" [.signal () "x"]])],
            .assignment () "a.b" (.component () "V" [])]),
          .ok (.component () "P" [.assignment () "x" (.text "($\x7bx.y\x7d)"),
            .behavior () ["x", "y"] (.component () "u.T" []),
            .scope () "f" [.assignment () "x" (.text "(\"\x7d\\\"\")"),
              .assignment () "y" (.text "($\x7bx.y\x7d)")]]),
          .ok (.component () "P" [.method () ["a.b", "x"] ["x", "y"] "\x7b\x7d" true true,
            .method () ["a.b"] [] "\x7b'\x7d'/*'*/\x7d" true false]),
          .ok (.component () "P" [.method () ["a.b"] [] "\x7b'\x7d'/*'*/\x7d" false false,
            .method () ["a.b"] ["x", "y"] "\x7b\x7d" false true])] := by
  refine ⟨rfl, ?_⟩
  simp only [parse_printed]
  rfl

/-- The texts that the root gives to properties; other declarations count as none. -/
def rootTexts : Tree → List (Option String)
  | .component _ _ body => body.map fun
    | .assignment _ _ (.plain (.str text)) => some text
    | .property _ _ [(_, .plain (.str text))] => some text
    | _ => none
  | _ => []

/-- What is left out of the trees is not read back: a value that looks like a value of a choice, a number
with too many digits, a component whose type starts with `typeof` and a number, and lists without entries.
A block that leaves a quote open, or has an import at the start of its code, can take in what follows. -/
theorem parse_unprinted :
    (parse {} "T \x7b p: _a.B; \x7d").result.toOption.map rootTexts = some [some "(_a.B)"] ∧
      (parse {} (assigning (.leaf (.number (10 ^ Number.mostDigits))))).result =
        .error (.number (.tooLong (Number.mostDigits + 1))) ∧
      (parse {} "T \x7b p: typeof.X \x7b \x7d \x7d").result.isOk = false ∧
      (parse {} "T \x7b property enum e \x7b \x7d; \x7d").result.isOk = false ∧
      (parse {} "T \x7b Behavior on \x7b T \x7b \x7d \x7d \x7d").result.isOk = false ∧
      (parse {} "T \x7b : \x7b \x7d \x7d").result.isOk = false ∧
      (parse {} "T \x7b property const a: \x7b'\x7d property const b: \x7b'\x7d \x7d").result.toOption.map
        rootTexts = some [some "\x7b'\x7d property const b: \x7b'\x7d"] ∧
      (parse {} "T \x7b property const a: \x7bimport\x7d b: \x7b\n'\x7d' \x7d \x7d").result.toOption.map
        rootTexts = some [some "\x7bimport\x7d b: \x7b\n'\x7d' \x7d"] := by
  refine ⟨by decide +kernel, ?_, by decide +kernel, by decide +kernel, by decide +kernel, by decide +kernel,
    by decide +kernel, by decide +kernel⟩
  rw [parse_tooLong {} (Nat.le_refl _), Number.length_digits_pow]

/-- A declaration with a block of code, up to its block. -/
inductive Coded where
  | function (async : Bool) (name : PathName) (args : List PlainName)
  | handler (async : Bool) (first : PathName) (others : List PathName) (args : List PlainName)
  | computed (name : PlainName)

def Coded.decl : Coded → Block → Decl
  | .function async name args, b => .function async name args b
  | .handler async first others args, b => .handler async first others args b
  | .computed name, b => .computed name b

def Coded.node : Coded → (code : String) → Node Unit
  | .function async name args, code => .method () [name.text] (args.map Ident.text) code false async
  | .handler async first others args, code =>
    .method () ((first :: others).map Ident.text) (args.map Ident.text) code true async
  | .computed name, code => .property () "const" [(name.text, .text code)]

theorem Coded.node_decl (d : Coded) (b : Block) : (d.decl b).node = d.node b.text := by
  cases d <;> rfl

theorem Coded.takes (d : Coded) (b : Block) (bound : Nat) (rest : List Char) :
    TakesTree (declarationUpTo (bound + 1)) (d.decl b).chars (d.node b.text) rest := by
  rw [← d.node_decl]
  cases d with
  | function async name args => exact takes_function async name args b
  | handler async first others args => exact takes_handler async first others args b
  | computed name => exact takes_declared_computed name b

/-- Whatever follows it, a declaration with a closed block ends with the block and has its text as code; so the
declarations around it are those that stand around an empty block. -/
theorem parse_coded (history : History) (type : TypeName) (before after : List Decl) (d : Coded) (b : Block) :
    (∀ bound rest, Takes (declarationUpTo (bound + 1)) (d.decl b).chars (·.undocumented = d.node b.text) rest) ∧
    (parse history (printed type (before ++ d.decl b :: after))).result.map Node.undocumented =
      .ok (.component () type.text (bodyNodes before ++ d.node b.text :: bodyNodes after)) := by
  refine ⟨d.takes b, ?_⟩
  obtain ⟨tree, c, notes, hsource, htree, hfault⟩ := source_printed history type (before ++ d.decl b :: after)
  rw [parse_result_of_done hsource hfault, Except.map, Notes.undocumented_resolve, htree]
  simp only [bodyNodes_eq, List.map_append, List.map_cons, d.node_decl]

/-- The rest of a line is skipped behind an import, with the brace that closes the block, if a string stands at
the start of the next line. -/
theorem parse_importing :
    (parse {} "T \x7b property const a: \x7bimport('a')\x7d property const b: \x7b\n'' \x7d \x7d").result.toOption.map
      rootTexts = some [some "\x7bimport('a')\x7d property const b: \x7b\n'' \x7d"] := by
  decide +kernel

end QmlScript.Grammar
