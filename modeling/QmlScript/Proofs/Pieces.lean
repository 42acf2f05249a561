import QmlScript.Proofs.Emission

/-!
# Scripts in pieces

The text of a script does not tell its own lines from code that was copied into it. Here a script is written
in *pieces*: the creation of an object, its setup, a block with a closure of its own, and any other text. By
induction on the component, the pieces make up its script.
-/

namespace QmlScript.Registry

open List Package Script

inductive Piece where
  | text (value : String)
  /-- An object is created: a slot is filled, and the parts follow. -/
  | create (indent : Nat) (var closure base : String) (inside : List Piece)
  /-- An object is set up: its slot is read and deleted, and the parts follow. -/
  | settle (indent : Nat) (var closure base : String) (inside : List Piece)
  | block (inside : List Piece)

abbrev Script := List Piece

def createText (indent : Nat) (var closure base : String) : String :=
  "\n//creating component " ++ base ++ "\n" ++
    tabs indent ++ var ++ ".$c(" ++ closure ++ ".$c$" ++ var ++ " = \x7b \x7d)\n"

def settleText (indent : Nat) (var closure base : String) : String :=
  "\n//setting up component " ++ base ++ "\n" ++
    tabs indent ++ "var " ++ var ++ " = " ++ closure ++ "." ++ var ++ "\n" ++
    tabs indent ++ var ++ ".$s(" ++ closure ++ ".$c$" ++ var ++ ")\n" ++
    tabs indent ++ "delete " ++ closure ++ ".$c$" ++ var ++ "\n" ++ "\n"

mutual

def Piece.render : Piece → String
  | .text value => value
  | .create indent var closure base inside => createText indent var closure base ++ Script.render inside
  | .settle indent var closure base inside => settleText indent var closure base ++ Script.render inside
  | .block inside => Script.render inside

def Script.render : List Piece → String
  | [] => ""
  | piece :: pieces => piece.render ++ Script.render pieces

end

def Script.lines (lines : List Script) : Script := List.intercalate [.text "\n"] lines

@[simp] theorem Script.render_nil : render [] = "" := by simp only [render]

@[simp] theorem Script.render_cons (piece : Piece) (pieces : Script) :
    Script.render (piece :: pieces) = piece.render ++ Script.render pieces := by
  simp only [render]

@[simp] theorem Piece.render_text (value : String) : (Piece.text value).render = value := by
  simp only [Piece.render]

@[simp] theorem Piece.render_block (inside : Script) :
    (Piece.block inside).render = Script.render inside := by
  simp only [Piece.render]

theorem Script.render_append (s t : Script) : render (s ++ t) = render s ++ render t := by
  induction s with
  | nil => simp
  | cons piece s ih => simp [ih, String.append_assoc]

theorem Script.lines_cons_cons (s t : Script) (lines : List Script) :
    Script.lines (s :: t :: lines) = s ++ (.text "\n" :: Script.lines (t :: lines)) := by
  simp [Script.lines, intercalate_cons_cons]

theorem Script.render_lines (lines : List Script) :
    render (Script.lines lines) = "\n".intercalate (lines.map render) := by
  induction lines with
  | nil => simp [Script.lines]
  | cons s lines ih =>
    cases lines with
    | nil => simp [Script.lines]
    | cons t lines =>
      rw [lines_cons_cons, render_append, render_cons, ih]
      simp [String.append_assoc]

/-- Groups of lines may be joined one by one, if none of them is empty. -/
theorem intercalate_flatten (sep : String) {groups : List (List String)} (h : ∀ g ∈ groups, g ≠ []) :
    sep.intercalate groups.flatten = sep.intercalate (groups.map sep.intercalate) := by
  induction groups with
  | nil => rfl
  | cons g groups ih =>
    have hrest := ih fun g' hg' => h g' (mem_cons_of_mem g hg')
    cases groups with
    | nil => simp
    | cons g' groups =>
      have hne : (g' :: groups).flatten ≠ [] := by
        have := h g' (by simp)
        simp [this]
      rw [flatten_cons, String.intercalate_append_of_ne_nil (h g (by simp)) hne, hrest]
      simp

/-! ## Works that differ by a map of their results -/

variable {α β γ δ : Type}

def Written (f : α → β) (w : Work β) (v : Work α) : Prop := w = f <$> v

namespace Written

variable {f : α → β} {g : γ → δ} {q : PartHalves}

theorem pure {a : α} {b : β} (h : b = f a) : Written f (Pure.pure b) (Pure.pure a) := by
  rw [Written, map_pure, h]

theorem bind {w : Work β} {v : Work α} {k : β → Work δ} {l : α → Work γ} (hw : Written f w v)
    (hk : ∀ a, Written g (k (f a)) (l a)) : Written g (w >>= k) (v >>= l) := by
  have hk' : ∀ a, k (f a) = g <$> l a := hk
  rw [Written, hw, bind_map_left, map_bind]
  exact bind_congr hk'

theorem after {w : Work α} {k : α → Work δ} {l : α → Work γ} (hk : ∀ a, Written g (k a) (l a)) :
    Written g (w >>= k) (w >>= l) := by
  have hk' : ∀ a, k a = g <$> l a := hk
  rw [Written, map_bind]
  exact bind_congr hk'

theorem throw (e : Error) : Written f (MonadExcept.throw e) (MonadExcept.throw e) := rfl

theorem ite {p : Prop} [Decidable p] {w w' : Work β} {v v' : Work α} (h : Written f w v) (h' : Written f w' v') :
    Written f (if p then w else w') (if p then v else v') := by
  split
  · exact h
  · exact h'

theorem mapM {as : List γ} {w : γ → Work β} {v : γ → Work α} (h : ∀ a ∈ as, Written f (w a) (v a)) :
    Written (List.map f) (as.mapM w) (as.mapM v) := by
  induction as with
  | nil => exact .pure rfl
  | cons a as ih =>
    rw [mapM_cons, mapM_cons]
    have hrest := ih fun a' ha' => h a' (mem_cons_of_mem a ha')
    exact (h a mem_cons_self).bind fun b => hrest.bind fun bs => .pure rfl

theorem run_ok {w : Work β} {v : Work α} (h : Written f w v) {r r' : Registry} {b : β}
    (hw : run w r = (.ok b, r')) : ∃ a, run v r = (.ok a, r') ∧ f a = b := by
  rw [Written] at h
  rw [h, map_eq_pure_bind] at hw
  obtain ⟨a, s, hv, ha⟩ := run_bind_ok hw
  rw [run_pure] at ha
  obtain ⟨hb, rfl⟩ := Prod.mk.inj ha
  exact ⟨a, hv, Except.ok.inj hb⟩

end Written

/-! ## The halves of a component in pieces -/

structure Halves where
  creators : (parent closure : String) → (indent : Nat) → Work Script
  setup : (parent closure : String) → (indent : Nat) → Work Script

structure PartHalves where
  component : Component
  halves : Halves

def halvesAt (parts : List PartHalves) (index : Nat) : Work PartHalves :=
  match parts[index]? with
  | some part => pure part
  | none => throw .wrongKind

def createPiece (indent : Nat) (var closure : String) (part : PartHalves) : Work Piece := do
  let inside ← part.halves.creators var closure indent
  return .create indent var closure part.component.base inside

def settlePiece (indent : Nat) (var closure : String) (part : PartHalves) : Work Piece := do
  let inside ← part.halves.setup var closure indent
  return .settle indent var closure part.component.base inside

def functionPiece (name : String) (indent : Nat) (part : PartHalves) : Work Piece := do
  let type ← findMangled part.component.package part.component.base
  let created ← createPiece (indent + 1) name "$c" part
  let settled ← settlePiece (indent + 1) name "$c" part
  return .block [
    .text ("(function(__parent, __row) \x7b\n" ++
      (tabs indent ++ "var " ++ name ++ " = new " ++ type ++ "(__parent, __row)\n" ++
        tabs indent ++ "var $c = \x7b " ++ name ++ " : " ++ name ++ " \x7d\n")),
    created, .text "\n", settled, .text "\n", .text ("\n" ++ tabs indent ++ "return " ++ name ++ "\n\x7d)")]

def propertyScript (c : Component) (parts : List PartHalves) (object : String) (indent lineIndent : Nat)
    (declaration : Property) (name : String) (value : Tree) : Work Script :=
  if declaration.isLazy then
    match c.lazyParts.get? name with
    | some index => do
      let part ← halvesAt parts index
      let code ← functionPiece ("lazy$" ++ name) (indent + 1) part
      return [.text (tabs indent ++ "core.addLazyProperty(" ++ object ++ ", '" ++ name ++ "', "), code,
        .text ")"]
    | none => throw .wrongKind
  else do
    let line ← propertyLine c [] object indent lineIndent declaration name value
    return [.text line]

def propertyScripts (c : Component) (parts : List PartHalves) (object : String)
    (indent lineIndent : Nat) : Work (List Script) := do
  let lines ← c.properties.mapM fun declaration =>
    declaration.items.mapM fun (name, value) =>
      propertyScript c parts object indent lineIndent declaration name value
  return lines.flatten

def instanceScripts (c : Component) (parts : List PartHalves) (parent : String) (indent : Nat) :
    Work (List Script) := do
  let signals := c.signals.map fun name =>
    tabs indent ++ parent ++ "." ++ name ++ " = $core.createSignal('" ++ name ++ "').bind(" ++
      parent ++ ")"
  let properties ← propertyScripts c parts parent indent 1
  match c.choices.keys with
  | name :: _ => throw (.choiceInPart name)
  | [] => pure ()
  match c.constants.keys with
  | name :: _ => throw (.constantInPart name)
  | [] => pure ()
  return signals.map (fun line => [.text line]) ++ properties

def childScripts (c : Component) (parts : List PartHalves) (parent closure : String) (indent : Nat)
    (position index : Nat) : Work (List Script) := do
  let part ← halvesAt parts index
  let var := childVariable parent position
  let type ← findMangled c.package part.component.base
  let inside ← createPiece indent var closure part
  return [
    [.text (tabs indent ++ "var " ++ var ++ " = new " ++ type ++ "(" ++ parent ++ ")")],
    [.text (tabs indent ++ closure ++ "." ++ var ++ " = " ++ var)],
    [inside],
    [.text (tabs indent ++ parent ++ ".addChild(" ++ var ++ ")")]]

def valueScripts (parts : List PartHalves) (parent closure : String) (indent : Nat) (target : String) :
    Assigned → Work (List Script)
  | .part index => do
    let part ← halvesAt parts index
    if target = "delegate" then
      let code ← functionPiece "delegate" indent part
      return [[.text (tabs indent ++ parent ++ "." ++ target ++ " = "), code]]
    else
      let var := valueVariable parent target
      let type ← findMangled part.component.package part.component.base
      let inside ← createPiece indent var closure part
      return [
        [.text ("//creating component " ++ part.component.name)],
        [.text (tabs indent ++ "var " ++ var ++ " = new " ++ type ++ "(" ++ parent ++ ")")],
        [.text (tabs indent ++ closure ++ "." ++ var ++ " = " ++ var)],
        [inside],
        [.text (tabs indent ++ parent ++ "." ++ target ++ " = " ++ var)]]
  | _ => return []

def partScripts (c : Component) (parts : List PartHalves) (parent closure : String) (indent : Nat)
    (declarations : List Script) : Work Script := do
  let children ← (c.children.zipIdx).mapM fun (index, position) =>
    childScripts c parts parent closure indent position index
  let values ← c.assignments.entries.mapM fun (target, value) => do
    let checked ← createTarget c parent indent target value
    let created ← valueScripts parts parent closure indent target value
    return checked.map (fun line => [.text line]) ++ created
  let aliases ← c.aliases.entries.mapM fun (name, target) => do
    let line ← aliasLine c parent indent name target
    return [.text line]
  return Script.lines (declarations ++ children.flatten ++ values.flatten ++ aliases)

def creatorScript (c : Component) (parts : List PartHalves) (parent closure : String) (indent : Nat) :
    Work Script := do
  let declarations ←
    if c.prototype then pure [] else instanceScripts c parts parent indent
  partScripts c parts parent closure indent declarations

/-- Set up what is given to a property; only a component has a slot. -/
def settleScripts (c : Component) (parts : List PartHalves) (parent closure : String) (indent : Nat)
    (target : String) (value : Assigned) : Work (List Script) :=
  match value with
  | .part index =>
    if target = "id" then return []
    else if target = "delegate" then return []
    else do
      let part ← halvesAt parts index
      let piece ← settlePiece indent (valueVariable parent target) closure part
      return [[piece]]
  | value => do
    let lines ← setupValue c [] parent closure indent target value
    return lines.map fun line => [.text line]

def behaviorVariable (parent name : String) : String :=
  "behavior_" ++ escape parent ++ "_on_" ++ escape name

def animationScripts (c : Component) (parts : List PartHalves) (parent : String) (name : String)
    (index : Nat) : Work (Script × List Script) := do
  let part ← halvesAt parts index
  let var := behaviorVariable parent name
  let type ← findMangled c.package part.component.base
  let created ← createPiece 1 var (var ++ "$c") part
  let settled ← settlePiece 1 var (var ++ "$c") part
  let (path, property) := splitName name
  let object ← if path = "" then pure parent else readPath c parent path
  return ([.text ("\tvar " ++ var ++ " = new " ++ type ++ "(" ++ parent ++ ")")], [
    [.text ("\tvar " ++ var ++ "$c = \x7b " ++ var ++ ": " ++ var ++ " \x7d")],
    [created],
    [settled],
    [.text ("\t" ++ object ++ ".setAnimation('" ++ property ++ "', " ++ var ++ ");\n")]])

def animationScript (c : Component) (parts : List PartHalves) (parent : String) : Work Script := do
  let blocks ← c.animations.entries.mapM fun (name, index) => animationScripts c parts parent name index
  return Script.lines (blocks.map fun (first, others) => [.block (Script.lines (first :: others))])

def setupScript (c : Component) (parts : List PartHalves) (parent closure : String) (indent : Nat) :
    Work Script := do
  let values ← c.assignments.entries.mapM fun (target, value) =>
    settleScripts c parts parent closure indent target value
  let attached ← attachments c parent indent
  let children ← (c.children.zipIdx).mapM fun (index, position) => do
    let part ← halvesAt parts index
    settlePiece indent (childVariable parent position) closure part
  let rows :=
    if c.rows.isEmpty then []
    else [tabs indent ++ parent ++ ".assign(" ++ (Json.sortKeys (.arr c.rows)).text ++ ")"]
  let animated ← animationScript c parts parent
  return Script.lines (values.flatten ++ attached.map (fun line => [.text line]) ++
    children.map (fun piece => [piece]) ++ rows.map (fun line => [.text line]) ++
    [animated, [.text (tabs indent ++ parent ++ ".completed()")]])

mutual

def halves : Component → Halves
  | c@{ parts, .. } =>
    let parts := halvesOfParts parts
    { creators := creatorScript c parts, setup := setupScript c parts }

def halvesOfParts : List Component → List PartHalves
  | [] => []
  | part :: parts => { component := part, halves := halves part } :: halvesOfParts parts

end

/-! ## The pieces make up the text -/

def Halves.Of (h : Halves) (e : Emitter) : Prop :=
  (∀ parent closure indent,
      Written Script.render (e.creators parent closure indent) (h.creators parent closure indent)) ∧
    ∀ parent closure indent,
      Written Script.render (e.setup parent closure indent) (h.setup parent closure indent)

structure PartHalves.Of (q : PartHalves) (p : Part) : Prop where
  component : p.component = q.component
  halves : q.halves.Of p.emitter

theorem written_createPiece {p : Part} (h : q.Of p) (indent : Nat) (var closure : String) :
    Written Piece.render (callCreate indent var closure p) (createPiece indent var closure q) := by
  unfold callCreate createPiece
  refine (h.halves.1 var closure indent).bind fun inside => .pure ?_
  rw [Piece.render, h.component]
  unfold createText
  rfl

theorem written_settlePiece {p : Part} (h : q.Of p) (indent : Nat) (var closure : String) :
    Written Piece.render (callSetup indent var closure p) (settlePiece indent var closure q) := by
  unfold callSetup settlePiece
  refine (h.halves.2 var closure indent).bind fun inside => .pure ?_
  rw [Piece.render, h.component]
  unfold settleText
  rfl

theorem written_functionPiece {p : Part} (h : q.Of p) (name : String) (indent : Nat) :
    Written Piece.render (creatorFunction name indent p) (functionPiece name indent q) := by
  unfold creatorFunction functionPiece
  rw [h.component]
  refine .after fun type => (written_createPiece h _ _ _).bind fun created =>
    (written_settlePiece h _ _ _).bind fun settled => .pure ?_
  simp only [Piece.render_block, Script.render_cons, Script.render_nil, Piece.render_text,
    String.append_assoc, String.append_empty]

theorem render_texts (lines : List String) : (lines.map fun line => [Piece.text line]).map Script.render = lines := by
  simp [Function.comp_def]

section Parts

variable {parts : List Part} {drafts : List PartHalves}
  (hparts : List.Forall₂ PartHalves.Of drafts parts)

include hparts

variable (c : Component) (parent closure : String) (indent : Nat)

theorem written_partAt_bind {f : γ → δ} {k : Part → Work δ} {l : PartHalves → Work γ}
    (hk : ∀ p q, q.Of p → Written f (k p) (l q)) (index : Nat) :
    Written f (partAt parts index >>= k) (halvesAt drafts index >>= l) := by
  induction hparts generalizing index with
  | nil => exact .throw _
  | @cons q p drafts parts hpart _ ih =>
    cases index with
    | zero => exact hk p q hpart
    | succ index => exact ih index

theorem written_propertyScript (object : String) (indent lineIndent : Nat)
    (declaration : Property) (name : String) (value : Tree) :
    Written Script.render (propertyLine c parts object indent lineIndent declaration name value)
      (propertyScript c drafts object indent lineIndent declaration name value) := by
  by_cases hlazy : declaration.isLazy = true
  · unfold propertyLine propertyScript
    rw [if_pos hlazy, if_pos hlazy]
    cases c.lazyParts.get? name with
    | none => exact .throw _
    | some index =>
      refine written_partAt_bind hparts (fun p q h => ?_) index
      refine (written_functionPiece h _ _).bind fun code => .pure ?_
      simp [String.append_assoc]
  · -- no part takes part in any other declaration
    have hsame : propertyLine c parts object indent lineIndent declaration name value =
        propertyLine c [] object indent lineIndent declaration name value := by
      unfold propertyLine
      rw [if_neg hlazy, if_neg hlazy]
    unfold propertyScript
    rw [if_neg hlazy, hsame, Written, map_bind]
    simp

theorem written_propertyScripts (object : String) (indent lineIndent : Nat) :
    Written (List.map Script.render) (propertyLines c parts object indent lineIndent)
      (propertyScripts c drafts object indent lineIndent) := by
  refine Written.bind (f := List.map (List.map Script.render)) (.mapM fun declaration _ => ?_)
    fun lines => .pure (by rw [map_flatten])
  exact .mapM fun item _ => written_propertyScript hparts _ _ _ _ _ _ _

theorem written_instanceScripts :
    Written (List.map Script.render) (instanceDeclarations c parts parent indent)
      (instanceScripts c drafts parent indent) := by
  refine (written_propertyScripts hparts c parent indent 1).bind fun properties => ?_
  dsimp only
  cases c.choices.keys with
  | cons name _ => exact .throw _
  | nil =>
    cases c.constants.keys with
    | cons name _ => exact .throw _
    | nil => exact .pure (by rw [map_append, render_texts])

theorem written_childScripts (position index : Nat) :
    Written (List.map Script.render) (createChild c parts parent closure indent position index)
      (childScripts c drafts parent closure indent position index) := by
  refine written_partAt_bind hparts (fun p q h => ?_) index
  dsimp only
  rw [h.component]
  refine .after fun type => (written_createPiece h _ _ _).bind fun inside => .pure ?_
  simp

theorem written_valueScripts (target : String) (value : Assigned) :
    Written (List.map Script.render) (createValue parts parent closure indent target value)
      (valueScripts drafts parent closure indent target value) := by
  cases value with
  | text value | other value => exact .pure rfl
  | part index =>
    refine written_partAt_bind hparts (fun p q h => ?_) index
    refine .ite ((written_functionPiece h _ _).bind fun code => .pure (by simp)) ?_
    dsimp only
    rw [h.component]
    exact .after fun type => (written_createPiece h _ _ _).bind fun inside => .pure (by simp)

theorem written_partScripts (declarations : List Script) :
    Written Script.render (createParts c parts parent closure indent (declarations.map Script.render))
      (partScripts c drafts parent closure indent declarations) := by
  refine Written.bind (f := List.map (List.map Script.render))
    (.mapM fun child _ => written_childScripts hparts _ _ _ _ _ _) fun children => ?_
  refine Written.bind (f := List.map (List.map Script.render)) (.mapM fun entry _ => ?_) fun values => ?_
  · refine .after fun checked => (written_valueScripts hparts _ _ _ _ _).bind fun created => ?_
    exact .pure (by rw [map_append, render_texts])
  refine Written.bind (f := List.map Script.render) (.mapM fun entry _ => ?_) fun aliases => .pure ?_
  · rw [Written, map_bind]
    simp
  rw [Script.render_lines]
  simp only [map_append, map_flatten]

theorem written_creatorScript :
    Written Script.render (creators c parts parent closure indent) (creatorScript c drafts parent closure indent) := by
  have hrest := written_partScripts hparts c parent closure indent
  exact .ite (Written.bind (f := List.map Script.render) (.pure rfl) hrest)
    ((written_instanceScripts hparts c parent indent).bind hrest)

theorem written_settleScripts (target : String) (value : Assigned) :
    Written (List.map Script.render) (setupValue c parts parent closure indent target value)
      (settleScripts c drafts parent closure indent target value) := by
  have htexts : ∀ value, (∀ index, value ≠ .part index) →
      Written (List.map Script.render) (setupValue c parts parent closure indent target value)
        (setupValue c [] parent closure indent target value >>= fun lines =>
          pure (lines.map fun line => [.text line])) := by
    intro value hvalue
    have hsame : setupValue c parts parent closure indent target value =
        setupValue c [] parent closure indent target value := by
      unfold setupValue
      cases value with
      | part index => exact absurd rfl (hvalue index)
      | text value => rfl
      | other value => cases value <;> rfl
    rw [hsame]
    simp only [Written, map_bind, map_pure, render_texts, bind_pure]
  cases value with
  | text value | other value => exact htexts _ (by simp)
  | part index =>
    refine .ite (.pure rfl) (.ite (.pure rfl) (written_partAt_bind hparts (fun p q h => ?_) index))
    exact (written_settlePiece h _ _ _).bind fun piece => .pure (by simp)

theorem written_animationScripts (name : String) (index : Nat) :
    Written (fun lines : Script × List Script => Script.render lines.1 :: lines.2.map Script.render)
      (animationLines c parts parent name index) (animationScripts c drafts parent name index) := by
  refine written_partAt_bind hparts (fun p q h => ?_) index
  dsimp only
  rw [h.component]
  refine .after fun type => (written_createPiece h _ _ _).bind fun created =>
    (written_settlePiece h _ _ _).bind fun settled => ?_
  exact .ite (.after fun object => .pure (by simp [behaviorVariable]))
    (.after fun object => .pure (by simp [behaviorVariable]))

theorem written_animationScript :
    Written Script.render (animations c parts parent) (animationScript c drafts parent) := by
  refine Written.bind (.mapM fun entry _ => written_animationScripts hparts c parent _ _) fun blocks => .pure ?_
  have hne : ∀ lines ∈ blocks.map fun lines => Script.render lines.1 :: lines.2.map Script.render, lines ≠ [] := by
    intro lines hlines
    obtain ⟨block, -, rfl⟩ := mem_map.mp hlines
    exact cons_ne_nil _ _
  rw [Script.render_lines, intercalate_flatten "\n" hne]
  simp [Function.comp_def, Script.render_lines]

theorem written_setupScript :
    Written Script.render (setup c parts parent closure indent) (setupScript c drafts parent closure indent) := by
  unfold setup setupFront setupBack setupScript
  simp only [bind_assoc, pure_bind]
  refine Written.bind (f := List.map (List.map Script.render))
    (.mapM fun entry _ => written_settleScripts hparts _ _ _ _ _ _) fun values => ?_
  refine .after fun attached => ?_
  refine Written.bind (f := List.map Piece.render) (.mapM fun child _ => ?_) fun children => ?_
  · exact written_partAt_bind hparts (fun p q h => written_settlePiece h _ _ _) _
  refine (written_animationScript hparts c parent).bind fun animated => .pure ?_
  rw [Script.render_lines]
  simp only [map_append, map_flatten, render_texts]
  simp [Function.comp_def]

end Parts

theorem halves_eq (c : Component) :
    halves c = ⟨creatorScript c (halvesOfParts c.parts), setupScript c (halvesOfParts c.parts)⟩ := by
  cases c
  simp only [halves]

mutual

theorem halves_of_emitter (c : Component) : (halves c).Of (emitter c) := by
  have hparts := halvesOfParts_of_emitParts c.parts
  rw [halves_eq, emitter_eq]
  exact ⟨written_creatorScript hparts c, written_setupScript hparts c⟩
termination_by sizeOf c
decreasing_by exact c.sizeOf_parts_lt

theorem halvesOfParts_of_emitParts (parts : List Component) :
    List.Forall₂ PartHalves.Of (halvesOfParts parts) (emitParts parts) := by
  match parts with
  | [] =>
    rw [halvesOfParts, emitParts]
    exact .nil
  | part :: parts =>
    rw [halvesOfParts, emitParts]
    exact .cons ⟨rfl, halves_of_emitter part⟩ (halvesOfParts_of_emitParts parts)
termination_by sizeOf parts

end

end QmlScript.Registry
