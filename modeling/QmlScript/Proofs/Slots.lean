import QmlScript.Proofs.Closure
import QmlScript.Proofs.Pieces

/-!
# Slots of objects

The creators of a component fill a slot of the closure for each object, and the setup reads each slot and
deletes it. Both halves compute the names of the slots on their own; here the objects are listed once, as
paths of labels, and both are compared with that list.
-/

namespace QmlScript.Registry

open List Package Registry.Script

variable {α β : Type}

/-! ## What a script does to slots -/

abbrev Slot := String × String

mutual

def Piece.stored : Piece → List Slot
  | .text _ => []
  | .create _ var closure _ inside => (closure, var) :: Script.stored inside
  | .settle _ _ _ _ inside => Script.stored inside
  | .block _ => []

def Script.stored : List Piece → List Slot
  | [] => []
  | piece :: pieces => piece.stored ++ Script.stored pieces

end

mutual

def Piece.taken : Piece → List Slot
  | .text _ => []
  | .create _ _ _ _ inside => Script.taken inside
  | .settle _ var closure _ inside => (closure, var) :: Script.taken inside
  | .block _ => []

def Script.taken : List Piece → List Slot
  | [] => []
  | piece :: pieces => piece.taken ++ Script.taken pieces

end

mutual

def Piece.Balanced : Piece → Prop
  | .text _ => True
  | .create _ _ _ _ inside => Script.Balanced inside
  | .settle _ _ _ _ inside => Script.Balanced inside
  | .block inside => (stored inside).Perm (Script.taken inside) ∧ Script.Balanced inside

def Script.Balanced : List Piece → Prop
  | [] => True
  | piece :: pieces => piece.Balanced ∧ Script.Balanced pieces

end

attribute [local simp] Piece.stored Script.stored Piece.taken Script.taken Piece.Balanced Script.Balanced

theorem Script.stored_append (s t : Script) : stored (s ++ t) = stored s ++ stored t := by
  induction s with
  | nil => simp
  | cons piece s ih => simp [ih]

theorem Script.taken_append (s t : Script) : Script.taken (s ++ t) = Script.taken s ++ Script.taken t := by
  induction s with
  | nil => simp
  | cons piece s ih => simp [ih]

theorem Script.balanced_append (s t : Script) : Script.Balanced (s ++ t) ↔ Script.Balanced s ∧ Script.Balanced t := by
  induction s with
  | nil => simp
  | cons piece s ih => simp [ih, and_assoc]

/-- A script fills the slots `stored` and empties `taken`, in any order, with balanced blocks. -/
structure Effect (s : Script) (stored taken : List Slot) : Prop where
  stored : (Script.stored s).Perm stored
  taken : (Script.taken s).Perm taken
  balanced : Script.Balanced s

namespace Effect

variable {s t : Script} {stored taken stored' taken' : List Slot} {as : List α}

theorem nil : Effect [] [] [] := by
  constructor <;> simp

theorem append (hs : Effect s stored taken) (ht : Effect t stored' taken') :
    Effect (s ++ t) (stored ++ stored') (taken ++ taken') where
  stored := by
    rw [Script.stored_append]
    exact hs.stored.append ht.stored
  taken := by
    rw [Script.taken_append]
    exact hs.taken.append ht.taken
  balanced := (Script.balanced_append s t).mpr ⟨hs.balanced, ht.balanced⟩

theorem perm (h : Effect s stored taken) (hstored : stored.Perm stored') (htaken : taken.Perm taken') :
    Effect s stored' taken' := ⟨h.stored.trans hstored, h.taken.trans htaken, h.balanced⟩

theorem text (value : String) : Effect [.text value] [] [] := by
  constructor <;> simp

theorem text_cons (value : String) (h : Effect s stored taken) : Effect (.text value :: s) stored taken := by
  simpa using (text value).append h

theorem block {slots : List Slot} (h : Effect s slots slots) : Effect [.block s] [] [] where
  stored := by simp
  taken := by simp
  balanced := by simpa using ⟨h.stored.trans h.taken.symm, h.balanced⟩

theorem append_idle (hs : Effect s stored taken) (ht : Effect t [] []) : Effect (s ++ t) stored taken := by
  simpa using hs.append ht

theorem idle_append (hs : Effect s [] []) (ht : Effect t stored taken) : Effect (s ++ t) stored taken := by
  simpa using hs.append ht

theorem self (h : Script.Balanced s) : Effect s (Script.stored s) (Script.taken s) := ⟨.refl _, .refl _, h⟩

theorem lines {lines : List Script} (h : Effect lines.flatten stored taken) :
    Effect (Script.lines lines) stored taken := by
  induction lines generalizing stored taken with
  | nil => exact h
  | cons s lines ih =>
    cases lines with
    | nil => simpa [Script.lines] using h
    | cons t lines =>
      rw [flatten_cons] at h
      obtain ⟨hs, hrest⟩ := (Script.balanced_append s _).mp h.balanced
      have hall := (self hs).append ((text "\n").idle_append (ih (self hrest)))
      rw [← Script.stored_append, ← Script.taken_append] at hall
      rw [Script.lines_cons_cons]
      exact hall.perm h.stored h.taken

theorem texts (lines : List String) : Effect (lines.map fun line => [Piece.text line]).flatten [] [] := by
  induction lines with
  | nil => exact nil
  | cons line lines ih => exact (text line).append_idle ih

theorem flatten {scripts : List Script} {stored taken : α → List Slot}
    (h : List.Forall₂ (fun a s => Effect s (stored a) (taken a)) as scripts) :
    Effect scripts.flatten (as.flatMap stored) (as.flatMap taken) := by
  induction h with
  | nil => exact nil
  | cons hhead _ ih =>
    rw [flatten_cons, flatMap_cons, flatMap_cons]
    exact hhead.append ih

theorem flatten_groups {groups : List (List Script)} {stored taken : α → List Slot}
    (h : List.Forall₂ (fun a lines => Effect lines.flatten (stored a) (taken a)) as groups) :
    Effect groups.flatten.flatten (as.flatMap stored) (as.flatMap taken) := by
  rw [flatten_flatten]
  exact flatten (List.forall₂_map_right_iff.mpr h)

theorem flatten_idle {scripts : List Script}
    (h : List.Forall₂ (fun _ s => Effect s [] []) as scripts) : Effect scripts.flatten [] [] := by
  have hall := flatten h
  rwa [flatMap_eq_nil_iff.mpr fun _ _ => rfl] at hall

end Effect

/-! ## What work gives, if it gives something -/

def Yields (w : Work α) (P : α → Prop) : Prop :=
  ∀ r a r', run w r = (.ok a, r') → P a

namespace Yields

variable {P : α → Prop} {Q : β → Prop}

theorem pure {a : α} (h : P a) : Yields (Pure.pure a) P := by
  intro r b r' hrun
  rw [run_pure] at hrun
  obtain rfl := Except.ok.inj (Prod.mk.inj hrun).1
  exact h

theorem throw (e : Error) : Yields (MonadExcept.throw e) P := by
  intro r a r' hrun
  rw [run_throw] at hrun
  exact absurd (Prod.mk.inj hrun).1 (by simp)

theorem bind {w : Work α} {k : α → Work β} (hw : Yields w P) (hk : ∀ a, P a → Yields (k a) Q) : Yields (w >>= k) Q := by
  intro r b r' hrun
  obtain ⟨a, s, ha, hb⟩ := run_bind_ok hrun
  exact hk a (hw r a s ha) s b r' hb

theorem after {w : Work α} {k : α → Work β} (hk : ∀ a, Yields (k a) Q) : Yields (w >>= k) Q := by
  intro r b r' hrun
  obtain ⟨a, s, -, hb⟩ := run_bind_ok hrun
  exact hk a s b r' hb

theorem ite {p : Prop} [Decidable p] {w v : Work α} (hw : Yields w P) (hv : Yields v P) :
    Yields (if p then w else v) P := by
  split
  · exact hw
  · exact hv

theorem mapM {f : α → Work β} {P : α → β → Prop}
    (h : ∀ a ∈ as, Yields (f a) (P a)) : Yields (as.mapM f) (List.Forall₂ P as) := by
  induction as with
  | nil => exact .pure .nil
  | cons a as ih =>
    rw [mapM_cons]
    have hrest := ih fun a' ha' => h a' (mem_cons_of_mem a ha')
    refine (h a mem_cons_self).bind fun b hb => hrest.bind fun bs hbs => ?_
    exact .pure (.cons hb hbs)

end Yields

/-! ## The objects of a component -/

/-- The labels on the way from a component to a part, the outermost first. -/
abbrev Path := List String

def pathVariable (parent : String) (path : Path) : String :=
  path.foldl (fun var label => escape var ++ "$" ++ label) parent

def slotsOf (parent closure : String) (paths : List Path) : List Slot :=
  paths.map fun path => (closure, pathVariable parent path)

def labelled (inner : List (List Path)) (label : String) (index : Nat) : List Path :=
  match inner[index]? with
  | some paths => [label] :: paths.map (label :: ·)
  | none => []

def childPaths (c : Component) (inner : List (List Path)) : List Path :=
  c.children.zipIdx.flatMap fun (index, position) => labelled inner ("child" ++ toString position) index

/-- What a property is given: a delegate is created when called, and an identifier is no component. -/
def valuePaths (inner : List (List Path)) (target : String) : Assigned → List Path
  | .part index =>
    if target = "id" ∨ target = "delegate" then [] else labelled inner (escape target) index
  | _ => []

mutual

/-- The objects in the closure of a component, at any depth. -/
def objects : Component → List Path
  | c@{ parts, .. } =>
    let inner := objectsOfParts parts
    childPaths c inner ++ c.assignments.entries.flatMap fun (target, value) =>
      valuePaths inner target value

def objectsOfParts : List Component → List (List Path)
  | [] => []
  | part :: parts => objects part :: objectsOfParts parts

end

/-- The objects of a component, from those of its parts. -/
def pathsWith (c : Component) (inner : List (List Path)) : List Path :=
  childPaths c inner ++ c.assignments.entries.flatMap fun entry => valuePaths inner entry.1 entry.2

theorem objects_eq (c : Component) : objects c = pathsWith c (objectsOfParts c.parts) := by
  cases c
  simp only [objects, pathsWith]

theorem slotsOf_append (parent closure : String) (paths paths' : List Path) :
    slotsOf parent closure (paths ++ paths') = slotsOf parent closure paths ++ slotsOf parent closure paths' :=
  map_append

theorem slotsOf_flatMap (parent closure : String) (as : List α) (paths : α → List Path) :
    slotsOf parent closure (as.flatMap paths) = as.flatMap fun a => slotsOf parent closure (paths a) := map_flatMap

theorem slotsOf_labelled {inner : List (List Path)} {index : Nat} {paths : List Path}
    (h : inner[index]? = some paths) (parent closure label : String) :
    slotsOf parent closure (labelled inner label index) =
      (closure, escape parent ++ "$" ++ label) :: slotsOf (escape parent ++ "$" ++ label) closure paths := by
  rw [labelled, h]
  simp [slotsOf, pathVariable, Function.comp_def]

theorem childVariable_eq (parent : String) (position : Nat) :
    childVariable parent position = escape parent ++ "$" ++ ("child" ++ toString position) := by
  rw [childVariable, ← String.append_assoc]
  have : escape parent ++ "$child" = escape parent ++ ("$" ++ "child") := rfl
  rw [this, ← String.append_assoc]

/-! ## Both halves use the slots of the objects -/

/-- Halves that fill and empty the slots of the objects at some paths. -/
def Halves.Serve (h : Halves) (paths : List Path) : Prop :=
  (∀ parent closure indent, Yields (h.creators parent closure indent) fun s =>
      Effect s (slotsOf parent closure paths) []) ∧
    ∀ parent closure indent, Yields (h.setup parent closure indent) fun s =>
      Effect s [] (slotsOf parent closure paths)

section Halves

variable {part : PartHalves} {paths : List Path} (h : part.halves.Serve paths)

include h

theorem createPiece_effect (indent : Nat) (var closure : String) :
    Yields (createPiece indent var closure part) fun piece =>
      Effect [piece] ((closure, var) :: slotsOf var closure paths) [] :=
  (h.1 var closure indent).bind fun _ hinside => .pure {
    stored := by simpa using hinside.stored
    taken := by simpa using hinside.taken
    balanced := by simpa using hinside.balanced }

theorem settlePiece_effect (indent : Nat) (var closure : String) :
    Yields (settlePiece indent var closure part) fun piece =>
      Effect [piece] [] ((closure, var) :: slotsOf var closure paths) :=
  (h.2 var closure indent).bind fun _ hinside => .pure {
    stored := by simpa using hinside.stored
    taken := by simpa using hinside.taken
    balanced := by simpa using hinside.balanced }

/-- A function that creates an object has the slots of it for itself. -/
theorem functionPiece_effect (name : String) (indent : Nat) :
    Yields (functionPiece name indent part) fun piece => Effect [piece] [] [] := by
  refine .after fun type => (createPiece_effect h _ _ _).bind fun created hcreated =>
    (settlePiece_effect h _ _ _).bind fun settled hsettled => .pure ?_
  have hinside : ∀ first last : String, Effect
      [.text first, created, .text "\n", settled, .text "\n", .text last]
      ((("$c", name) :: slotsOf name "$c" paths) ++ [])
      ([] ++ ("$c", name) :: slotsOf name "$c" paths) := by
    intro first last
    have hrest := (hsettled.append_idle ((Effect.text last).text_cons "\n")).text_cons "\n"
    exact (hcreated.append hrest).text_cons first
  simp only [append_nil, nil_append] at hinside
  exact (hinside _ _).block

end Halves

section Parts

variable {parts : List PartHalves} {inner : List (List Path)}
  (hparts : List.Forall₂ (fun part paths => part.halves.Serve paths) parts inner)

include hparts

variable (c : Component) (parent closure object : String) (indent lineIndent : Nat)

theorem halvesAt_bind {Q : β → Prop} {index : Nat} {k : PartHalves → Work β}
    (hk : ∀ part paths, inner[index]? = some paths → part.halves.Serve paths → Yields (k part) Q) :
    Yields (halvesAt parts index >>= k) Q := by
  induction hparts generalizing index with
  | nil => exact .throw _
  | @cons part paths parts inner hpart _ ih =>
    cases index with
    | zero => exact hk part paths rfl hpart
    | succ index => exact ih fun part paths hindex => hk part paths hindex

/-! Declarations of properties. -/

theorem propertyScript_effect (declaration : Property) (name : String) (value : Tree) :
    Yields (propertyScript c parts object indent lineIndent declaration name value) fun line => Effect line [] [] := by
  unfold propertyScript
  by_cases hlazy : declaration.isLazy = true
  · rw [if_pos hlazy]
    cases c.lazyParts.get? name with
    | none => exact .throw _
    | some index =>
      refine halvesAt_bind hparts fun part paths _ hpart => ?_
      refine (functionPiece_effect hpart _ _).bind fun code hcode => .pure ?_
      exact (hcode.append_idle (.text _)).text_cons _
  · rw [if_neg hlazy]
    exact .after fun line => .pure (.text line)

theorem propertyScripts_effect :
    Yields (propertyScripts c parts object indent lineIndent) fun lines => Effect lines.flatten [] [] := by
  refine (Yields.mapM fun declaration _ => Yields.mapM fun item _ =>
    propertyScript_effect hparts c object indent lineIndent declaration item.1 item.2).bind
      fun groups hgroups => .pure ?_
  rw [flatten_flatten]
  exact .flatten_idle (List.forall₂_map_right_iff.mpr (hgroups.imp fun _ _ => .flatten_idle))

theorem instanceScripts_effect :
    Yields (instanceScripts c parts parent indent) fun lines => Effect lines.flatten [] [] := by
  refine (propertyScripts_effect hparts c parent indent 1).bind fun properties hproperties => ?_
  dsimp only
  cases c.choices.keys with
  | cons name _ => exact .throw _
  | nil =>
    cases c.constants.keys with
    | cons name _ => exact .throw _
    | nil =>
      refine .pure ?_
      rw [flatten_append]
      exact (Effect.texts _).append_idle hproperties

theorem childScripts_effect (position index : Nat) :
    Yields (childScripts c parts parent closure indent position index) fun lines =>
      Effect lines.flatten (slotsOf parent closure (labelled inner ("child" ++ toString position) index)) [] := by
  refine halvesAt_bind hparts fun part paths hindex hpart => ?_
  rw [slotsOf_labelled hindex, ← childVariable_eq]
  refine .after fun type => (createPiece_effect hpart _ _ _).bind fun inside hinside => .pure ?_
  exact ((hinside.append_idle (.text _)).text_cons _).text_cons _

theorem valueScripts_effect {target : String} {value : Assigned}
    (hid : ∀ index, value = .part index → target ≠ "id") (parent closure : String) (indent : Nat) :
    Yields (valueScripts parts parent closure indent target value) fun lines =>
      Effect lines.flatten (slotsOf parent closure (valuePaths inner target value)) [] := by
  cases value with
  | text value | other value => exact .pure .nil
  | part index =>
    refine halvesAt_bind hparts fun part paths hindex hpart => ?_
    by_cases hdelegate : target = "delegate"
    · rw [if_pos hdelegate, valuePaths, if_pos (.inr hdelegate)]
      refine (functionPiece_effect hpart _ _).bind fun code hcode => .pure ?_
      exact hcode.text_cons _
    · have hobject : ¬(target = "id" ∨ target = "delegate") := by
        rintro (hid' | hdelegate')
        · exact hid index rfl hid'
        · exact hdelegate hdelegate'
      rw [if_neg hdelegate, valuePaths, if_neg hobject, slotsOf_labelled hindex]
      refine .after fun type => (createPiece_effect hpart _ _ _).bind fun inside hinside => .pure ?_
      exact (((hinside.append_idle (.text _)).text_cons _).text_cons _).text_cons _

theorem assignmentScripts_effect (target : String) (value : Assigned) :
    Yields (do
      let checked ← createTarget c parent indent target value
      let created ← valueScripts parts parent closure indent target value
      return checked.map (fun line => [Piece.text line]) ++ created) fun lines =>
      Effect lines.flatten (slotsOf parent closure (valuePaths inner target value)) [] := by
  by_cases hid : ∃ index, value = .part index ∧ target = "id"
  · obtain ⟨index, rfl, rfl⟩ := hid
    exact (Yields.throw _ : Yields (createTarget c parent indent "id" (.part index)) fun _ => False).bind
      fun _ => False.elim
  · have hid' : ∀ index, value = .part index → target ≠ "id" := fun index hvalue htarget =>
      hid ⟨index, hvalue, htarget⟩
    refine .after fun checked =>
      (valueScripts_effect hparts hid' parent closure indent).bind fun created hcreated => .pure ?_
    rw [flatten_append]
    exact (Effect.texts _).idle_append hcreated

theorem partScripts_effect {declarations : List Script} (hdeclarations : Effect declarations.flatten [] []) :
    Yields (partScripts c parts parent closure indent declarations) fun s =>
      Effect s (slotsOf parent closure (pathsWith c inner)) [] := by
  refine (Yields.mapM fun child _ =>
    childScripts_effect hparts c parent closure indent child.2 child.1).bind fun children hchildren => ?_
  refine (Yields.mapM fun entry _ =>
    assignmentScripts_effect hparts c parent closure indent entry.1 entry.2).bind fun values hvalues => ?_
  refine (Yields.mapM (P := fun _ line => Effect line [] []) fun entry _ => ?_).bind
    fun aliases haliases => .pure (.lines ?_)
  · exact .after fun line => .pure (.text line)
  have hall := (Effect.flatten_groups hchildren).append
    ((Effect.flatten_groups hvalues).append_idle (.flatten_idle haliases))
  simp only [flatten_append, append_assoc]
  refine hdeclarations.idle_append (hall.perm (.of_eq ?_) (.of_eq ?_))
  · rw [pathsWith, slotsOf_append, slotsOf_flatMap, childPaths, slotsOf_flatMap]
  · simp [flatMap_eq_nil_iff]

theorem creatorScript_effect :
    Yields (creatorScript c parts parent closure indent) fun s =>
      Effect s (slotsOf parent closure (pathsWith c inner)) [] := by
  have hbehind := fun (declarations : List Script) (hdeclarations : Effect declarations.flatten [] []) =>
    partScripts_effect hparts c parent closure indent hdeclarations
  exact .ite (Yields.bind (P := fun lines => Effect lines.flatten [] []) (.pure .nil) hbehind)
    ((instanceScripts_effect hparts c parent indent).bind hbehind)

theorem settleScripts_effect (target : String) (value : Assigned) :
    Yields (settleScripts c parts parent closure indent target value) fun lines =>
      Effect lines.flatten [] (slotsOf parent closure (valuePaths inner target value)) := by
  unfold settleScripts
  cases value with
  | text value | other value => exact .after fun lines => .pure (.texts lines)
  | part index =>
    by_cases hid : target = "id"
    · simp only [if_pos hid, valuePaths, if_pos (Or.inl hid : target = "id" ∨ target = "delegate")]
      exact .pure .nil
    · by_cases hdelegate : target = "delegate"
      · simp only [if_neg hid, if_pos hdelegate, valuePaths,
          if_pos (Or.inr hdelegate : target = "id" ∨ target = "delegate")]
        exact .pure .nil
      · have hobject : ¬(target = "id" ∨ target = "delegate") := not_or.mpr ⟨hid, hdelegate⟩
        simp only [if_neg hid, if_neg hdelegate, valuePaths, if_neg hobject]
        refine halvesAt_bind hparts fun part paths hindex hpart => ?_
        rw [slotsOf_labelled hindex]
        exact (settlePiece_effect hpart _ _ _).bind fun piece hpiece => .pure hpiece

theorem animationScripts_effect (name : String) (index : Nat) :
    Yields (animationScripts c parts parent name index) fun lines =>
      Effect [.block (Script.lines (lines.1 :: lines.2))] [] [] := by
  refine halvesAt_bind hparts fun part paths _ hpart => ?_
  refine .after fun type => (createPiece_effect hpart _ _ _).bind fun created hcreated =>
    (settlePiece_effect hpart _ _ _).bind fun settled hsettled => ?_
  have hboth := hcreated.append hsettled
  rw [append_nil, nil_append] at hboth
  have hblock : ∀ first second last : String, Effect [.block (Script.lines
      ([.text first] :: [[.text second], [created], [settled], [.text last]]))] [] [] := by
    intro first second last
    have hinside : Effect (List.flatten ([.text first] :: [[.text second], [created], [settled],
        [.text last]])) _ _ := ((hboth.append_idle (.text last)).text_cons second).text_cons first
    exact hinside.lines.block
  exact .ite (.after fun object => .pure (hblock _ _ _)) (.after fun object => .pure (hblock _ _ _))

theorem animationScript_effect : Yields (animationScript c parts parent) fun s => Effect s [] [] := by
  refine (Yields.mapM fun entry _ =>
    animationScripts_effect hparts c parent entry.1 entry.2).bind fun blocks hblocks => .pure (.lines ?_)
  exact .flatten_idle (List.forall₂_map_right_iff.mpr hblocks)

theorem setupScript_effect :
    Yields (setupScript c parts parent closure indent) fun s =>
      Effect s [] (slotsOf parent closure (pathsWith c inner)) := by
  refine (Yields.mapM fun entry _ =>
    settleScripts_effect hparts c parent closure indent entry.1 entry.2).bind fun values hvalues => ?_
  refine .after fun attached => ?_
  refine (Yields.mapM (P := fun child piece => Effect [piece] [] (slotsOf parent closure
    (labelled inner ("child" ++ toString child.2) child.1))) fun child _ => ?_).bind fun children hchildren => ?_
  · refine halvesAt_bind hparts fun part paths hindex hpart => ?_
    rw [slotsOf_labelled hindex, ← childVariable_eq]
    exact settlePiece_effect hpart _ _ _
  dsimp only
  refine (animationScript_effect hparts c parent).bind fun animated hanimated => .pure (.lines ?_)
  have hsettled := ((Effect.flatten_groups hvalues).append_idle (.texts attached)).append
    (Effect.flatten (List.forall₂_map_right_iff.mpr hchildren))
  have hend : ∀ rows : List String, Effect ((rows.map fun row => [Piece.text row]).flatten ++
      (animated ++ [.text (tabs indent ++ parent ++ ".completed()")])) [] [] := by
    intro rows
    exact (Effect.texts rows).idle_append (hanimated.append_idle (.text _))
  -- values come first here, and children come first in the list of objects
  have hslots : (c.assignments.entries.flatMap fun entry =>
        slotsOf parent closure (valuePaths inner entry.1 entry.2)) ++
      (c.children.zipIdx.flatMap fun child =>
        slotsOf parent closure (labelled inner ("child" ++ toString child.2) child.1)) |>.Perm
      (slotsOf parent closure (pathsWith c inner)) := by
    rw [pathsWith, slotsOf_append, slotsOf_flatMap, childPaths, slotsOf_flatMap]
    exact perm_append_comm
  have hall := hsettled.append_idle (hend
    (if c.rows.isEmpty then []
      else [tabs indent ++ parent ++ ".assign(" ++ (Json.sortKeys (.arr c.rows)).text ++ ")"]))
  simp only [flatten_append, flatten_cons, flatten_nil, append_nil, append_assoc] at hall ⊢
  exact hall.perm (by simp [flatMap_eq_nil_iff]) hslots

end Parts

mutual

theorem halves_serve (c : Component) : (halves c).Serve (objects c) := by
  have hparts := halvesOfParts_serve c.parts
  rw [halves_eq, objects_eq]
  exact ⟨creatorScript_effect hparts c, setupScript_effect hparts c⟩
termination_by sizeOf c
decreasing_by exact c.sizeOf_parts_lt

theorem halvesOfParts_serve (parts : List Component) :
    List.Forall₂ (fun part paths => part.halves.Serve paths) (halvesOfParts parts) (objectsOfParts parts) := by
  match parts with
  | [] =>
    rw [halvesOfParts, objectsOfParts]
    exact .nil
  | part :: parts =>
    rw [halvesOfParts, objectsOfParts]
    exact .cons (halves_serve part) (halvesOfParts_serve parts)
termination_by sizeOf parts

end

/-! ## Every object is set up once -/

/-- A script does nothing to slots outside of its balanced blocks. -/
def SelfContained (lines : List Script) : Prop :=
  stored lines.flatten = [] ∧ Script.taken lines.flatten = [] ∧ Script.Balanced lines.flatten

/-- The creators fill one slot for each object of a component, the setup empties the same slots and no
others, and each function that creates an object and each animation empties the slots that it fills;
so do the functions of lazy properties among the declarations. -/
theorem created_perm_settled {c : Component} {parent closure : String} {indent indent' : Nat}
    {r r' s s' : Registry} {created settled : String}
    (hcreated : run ((emitter c).creators parent closure indent) r = (.ok created, r'))
    (hsettled : run ((emitter c).setup parent closure indent') s = (.ok settled, s')) :
    ∃ p q : Script,
      run ((halves c).creators parent closure indent) r = (.ok p, r') ∧ Script.render p = created ∧
      run ((halves c).setup parent closure indent') s = (.ok q, s') ∧ Script.render q = settled ∧
      (Script.stored p).Perm (slotsOf parent closure (objects c)) ∧
      (Script.stored p).Perm (Script.taken q) ∧ Script.taken p = [] ∧ Script.stored q = [] ∧
      Script.Balanced p ∧ Script.Balanced q ∧
      ∀ object depth depth' t t' lines,
        run (propertyLines c (emitParts c.parts) object depth depth') t = (.ok lines, t') →
        ∃ scripts, run (propertyScripts c (halvesOfParts c.parts) object depth depth') t =
          (.ok scripts, t') ∧ scripts.map Script.render = lines ∧ SelfContained scripts := by
  obtain ⟨hwritten, hwritten'⟩ := halves_of_emitter c
  obtain ⟨p, hp, rfl⟩ := (hwritten parent closure indent).run_ok hcreated
  obtain ⟨q, hq, rfl⟩ := (hwritten' parent closure indent').run_ok hsettled
  have hpe : Effect p (slotsOf parent closure (objects c)) [] :=
    (halves_serve c).1 parent closure indent r p r' hp
  have hqe : Effect q [] (slotsOf parent closure (objects c)) :=
    (halves_serve c).2 parent closure indent' s q s' hq
  refine ⟨p, q, hp, rfl, hq, rfl, hpe.stored, hpe.stored.trans hqe.taken.symm, hpe.taken.eq_nil,
    hqe.stored.eq_nil, hpe.balanced, hqe.balanced, ?_⟩
  intro object depth depth' t t' lines hlines
  have hproperties := written_propertyScripts (halvesOfParts_of_emitParts c.parts) c object depth depth'
  obtain ⟨scripts, hscripts, hrender⟩ := hproperties.run_ok hlines
  have heffect : Effect scripts.flatten [] [] :=
    propertyScripts_effect (halvesOfParts_serve c.parts) c object depth depth' t scripts t' hscripts
  exact ⟨scripts, hscripts, hrender, heffect.stored.eq_nil, heffect.taken.eq_nil, heffect.balanced⟩

theorem exists_run_ok {w : Work α} {r : Registry} (h : (run w r).1.isOk = true) : ∃ a r', run w r = (.ok a, r') := by
  obtain ⟨a, ha⟩ := exists_of_isOk h
  exact ⟨a, (run w r).2, Prod.ext ha rfl⟩

def framed : Component :=
  { name := "ui.<anonymous>", base := "CoreObject", prototype := false, handlers := some {}
    children := [0]
    parts := [{ name := "ui.<anonymous>", base := "CoreObject", prototype := false, handlers := some {} }] }

/-- A type with a child, a header, a delegate, an animation and a lazy property, each with a child. -/
def panel : Component :=
  let views : Property := { doc := none, type := "var", items := [("header", .absent), ("delegate", .absent)] }
  let tip : Property := { doc := none, type := "lazy", items := [("tip", .component none "CoreObject" [])] }
  { name := "ui.Panel", base := "CoreObject", prototype := true, handlers := some {}
    properties := [views, tip], declared := ⟨[("header", views), ("delegate", views), ("tip", tip)]⟩
    children := [0]
    assignments := ⟨[("header", .part 1), ("delegate", .part 2)]⟩
    animations := ⟨[("header", 3)]⟩
    lazyParts := ⟨[("tip", 4)]⟩
    parts := List.replicate 5 framed }

set_option maxRecDepth 100000 in
theorem panel_created_perm_settled :
    ∃ created settled r r',
      run ((emitter panel).creators "$this" "$c" 1) { ns := "qml", buildId := "1" } = (.ok created, r) ∧
      run ((emitter panel).setup "$this" "$c" 2) { ns := "qml", buildId := "1" } = (.ok settled, r') ∧
      ∃ p q : Script, render p = created ∧ render q = settled ∧
        (stored p).Perm (slotsOf "$this" "$c" [["child0"], ["child0", "child0"], ["header"],
          ["header", "child0"]]) ∧
        (stored p).Perm (Script.taken q) ∧ Script.Balanced p ∧ Script.Balanced q := by
  obtain ⟨created, r, hc⟩ : ∃ created r,
      run ((emitter panel).creators "$this" "$c" 1) { ns := "qml", buildId := "1" } = (.ok created, r) :=
    exists_run_ok (by decide +kernel)
  obtain ⟨settled, r', hs⟩ : ∃ settled r',
      run ((emitter panel).setup "$this" "$c" 2) { ns := "qml", buildId := "1" } = (.ok settled, r') :=
    exists_run_ok (by decide +kernel)
  obtain ⟨p, q, -, hp, -, hq, hobjects, hperm, -, -, hbp, hbq, -⟩ := created_perm_settled hc hs
  exact ⟨created, settled, r, r', hc, hs, p, q, hp, hq, hobjects, hperm, hbp, hbq⟩

end QmlScript.Registry
