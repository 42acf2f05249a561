import QmlScript.Proofs.Work
import QmlScript.Registry.Emit

/-!
# Scripts of components are written alike

The script of a component is written by work that only resolves names and marks what it finds. Over registries
that answer alike it is the same, with the same marks.
-/

namespace QmlScript.Registry

open List Script

section Lookup

variable {transform : String → Work String} [∀ name, Resolves (transform name)]

instance (path : List String) : Resolves (joinPath transform path) := by
  cases path <;> unfold joinPath <;> infer_instance

instance (path parent : String) : Resolves (pathOrParent path parent transform) := by
  unfold pathOrParent
  infer_instance

instance (parent target : String) : Resolves (accessors parent target transform) := by
  unfold accessors
  infer_instance

instance (parent inside : String) : Resolves (resolve parent transform inside) := by
  unfold resolve
  dsimp only
  split <;> infer_instance

instance (parent : String) (pieces : List (Char ⊕ String)) : Resolves (resolvePieces parent transform pieces) := by
  fun_induction resolvePieces parent transform pieces <;> infer_instance

instance (parent text : String) : Resolves (dependencies parent text transform) := by
  unfold dependencies
  infer_instance

end Lookup

section Choices

variable {look : String → Work (Option String)} [∀ type, Resolves (look type)]

instance (pieces : List (Char ⊕ (String × String))) : Resolves (replaceChoicePieces look pieces) := by
  fun_induction replaceChoicePieces look pieces <;> infer_instance

instance (text : String) : Resolves (replaceChoices look text) := by
  unfold replaceChoices
  infer_instance

end Choices

variable {α : Type} (c : Component)

instance : Resolves (baseOf c) := Resolves.find _ _ _ _

instance (current reference : String) : Resolves (findMangled current reference) := Resolves.find _ _ _ _

instance : Resolves (mangledBaseOf c) := by
  unfold mangledBaseOf
  infer_instance

instance (name : String) (bound : Nat) (c : Component) : Resolves (findPropertyUpTo name bound c) := by
  fun_induction findPropertyUpTo name bound c <;> infer_instance

instance (name : String) : Resolves (hasProperty c name) := by
  have : Resolves (findProperty c name) :=
    .ask (fun r => r.components.size) (fun hR => hR.size) (k := fun size => findPropertyUpTo name (size + 2) c)
  unfold hasProperty
  infer_instance

instance (target : String) : Resolves (checkTarget c target) := by
  unfold checkTarget
  split
  · rename_i head _ _ _
    exact .ask (fun r => r.ids) (fun hR => hR.ids) (k := fun ids => if ids.contains head = true then pure () else do
      unless ← hasProperty c head do throw (.unknownProperty head c.name c.base))
  · infer_instance

instance (parent : Option String) (name : String) : Resolves (pathRoot c parent name) := by
  unfold pathRoot
  infer_instance

instance (parent target : String) : Resolves (readPath c parent target) := by
  unfold readPath
  infer_instance

instance (text : String) : Resolves (resolveChoices c text) := by
  unfold resolveChoices
  infer_instance

/-- The code of a function, with the identifiers that it uses looked up. -/
def scopedCode (c : Component) (code : String) (ids : List String) : Work String := do
  let code ←
    if ids.isEmpty then pure code
    else
      match behindBrace? (lookUps ids) code with
      | some code => pure code
      | none => throw .noBrace
  resolveChoices c code

instance (args : List String) (code : String) : Resolves (processCode c args code) := by
  have : ∀ ids, Resolves (scopedCode c code ids) := fun ids => by
    unfold scopedCode
    cases behindBrace? (lookUps ids) code <;> infer_instance
  exact .ask (fun r => usedIds r.ids args code) (fun hR _ _ h => by rw [hR.ids h]) (k := scopedCode c code)

instance (name : String) (method : Method) : Resolves (functionText c name method) := by
  unfold functionText
  infer_instance

instance (methods : Table MethodKey Method) : Resolves (functions c methods) := by
  unfold functions
  infer_instance

theorem functions_none : functions c {} = pure [] := by simp [functions, sortBy]

class ResolvesAll (e : Emitter) : Prop where
  creators : ∀ parent closure indent, Resolves (e.creators parent closure indent)
  setup : ∀ parent closure indent, Resolves (e.setup parent closure indent)

attribute [instance] ResolvesAll.creators ResolvesAll.setup

section

variable (part : Part) [ResolvesAll part.emitter] (name target closure : String) (indent : Nat)

instance : Resolves (callCreate indent target closure part) := by
  unfold callCreate
  infer_instance

instance : Resolves (callSetup indent target closure part) := by
  unfold callSetup
  infer_instance

instance : Resolves (creatorFunction name indent part) := by
  unfold creatorFunction
  infer_instance

end

class AllResolve (parts : List Part) : Prop where
  emitter : ∀ part ∈ parts, ResolvesAll part.emitter

section Parts

variable (parts : List Part) [hparts : AllResolve parts]

instance (p : { part : Part // ResolvesAll part.emitter }) : ResolvesAll p.1.emitter := p.2

instance {k : Part → Work α} [hk : ∀ p : { part : Part // ResolvesAll part.emitter }, Resolves (k p.1)] (index : Nat) :
    Resolves (partAt parts index >>= k) := by
  unfold partAt
  cases hpart : parts[index]? with
  | none => exact ⟨fun _ _ _ _ h => .failed _ _ h⟩
  | some part => exact (pure_bind part k).symm ▸ hk ⟨part, hparts.emitter part (mem_of_getElem? hpart)⟩

variable (c : Component) (parent closure : String) (indent : Nat) (name target : String)
variable (value : Assigned)

instance (value : Tree) : Resolves (trivialDefault c value) := by
  refine @Resolves.bind _ _ _ _ _ fun trivial => ?_
  split
  · split <;> infer_instance
  · infer_instance

instance (object : String) (indent lineIndent : Nat) (declaration : Property) (name : String) (value : Tree) :
    Resolves (propertyLine c parts object indent lineIndent declaration name value) := by
  unfold propertyLine lazyProperty
  split
  · split <;> infer_instance
  · infer_instance

instance (object : String) (indent lineIndent : Nat) :
    Resolves (propertyLines c parts object indent lineIndent) := by
  unfold propertyLines
  infer_instance

instance : Resolves (instanceDeclarations c parts parent indent) := by
  unfold instanceDeclarations
  cases c.choices.keys <;> cases c.constants.keys <;> infer_instance

instance (position index : Nat) : Resolves (createChild c parts parent closure indent position index) := by
  unfold createChild
  infer_instance

instance : Resolves (createTarget c parent indent target value) := by
  unfold createTarget
  cases value <;> infer_instance

instance : Resolves (createValue parts parent closure indent target value) := by
  unfold createValue
  cases value <;> infer_instance

instance : Resolves (aliasLine c parent indent name target) := by
  unfold aliasLine
  infer_instance

instance (declarations : List String) : Resolves (createParts c parts parent closure indent declarations) := by
  unfold createParts
  infer_instance

instance : Resolves (creators c parts parent closure indent) := by
  unfold creators
  infer_instance

instance (value : String) : Resolves (assignText c parent indent target value) := by
  unfold assignText
  infer_instance

instance : Resolves (setupValue c parts parent closure indent target value) := by
  unfold setupValue
  cases value with
  | other value => cases value <;> infer_instance
  | _ => infer_instance

instance {indent : Nat} {keep : MethodKey → Bool}
    {line : String → MethodKey → Work String} {arrange : List MethodKey → List MethodKey}
    [∀ code key, Resolves (line code key)] (functions : List (String × List MethodKey))
    (lines : Lines) : Resolves (handlerLines indent keep line arrange lines functions) := by
  fun_induction handlerLines indent keep line arrange lines functions <;> infer_instance

instance (functions : List (String × List MethodKey)) (lines : Lines) :
    Resolves (methodLines c parent indent lines functions) := by
  induction functions generalizing lines <;> unfold methodLines <;> infer_instance

instance (method : String) (guarded : Bool) (code : String) (key : MethodKey) :
    Resolves (attachLine c parent indent method guarded code key) := by
  unfold attachLine
  infer_instance

instance : Resolves (handlersOf c) := by
  unfold handlersOf
  split <;> infer_instance

instance (kind : HandlerKind) (handlers : Handlers) (lines : Lines) :
    Resolves (attachTable c parent indent kind handlers lines) := by
  unfold attachTable
  infer_instance

instance (lines : Lines) : Resolves (attachHandlers c parent indent lines) := by
  unfold attachHandlers
  infer_instance

instance : Resolves (attachments c parent indent) := by
  unfold attachments
  infer_instance

instance (index : Nat) : Resolves (animationLines c parts parent name index) := by
  unfold animationLines
  infer_instance

instance : Resolves (animations c parts parent) := by
  unfold animations
  infer_instance

instance : Resolves (setupFront c parts parent closure indent) := by
  unfold setupFront
  infer_instance

instance : Resolves (setupBack c parts parent closure indent) := by
  unfold setupBack
  infer_instance

instance : Resolves (setup c parts parent closure indent) := by
  unfold setup
  infer_instance

end Parts

theorem emitter_eq (c : Component) :
    emitter c = { creators := creators c (emitParts c.parts), setup := setup c (emitParts c.parts) } := by
  cases c
  rw [emitter]

theorem mem_emitParts {parts : List Component} {p : Part} (h : p ∈ emitParts parts) :
    ∃ part ∈ parts, p.emitter = emitter part := by
  induction parts with
  | nil => simp [emitParts] at h
  | cons part parts ih =>
    rw [emitParts] at h
    rcases mem_cons.mp h with rfl | h
    · exact ⟨part, mem_cons_self, rfl⟩
    · obtain ⟨part, hpart, heq⟩ := ih h
      exact ⟨part, mem_cons_of_mem _ hpart, heq⟩

/-- By induction: the halves only resolve names once those of parts do. -/
instance (c : Component) : ResolvesAll (emitter c) := by
  induction c using Component.inductParts with
  | h c ih =>
    have : AllResolve (emitParts c.parts) := ⟨fun p hp => by
      obtain ⟨part, hpart, heq⟩ := mem_emitParts hp
      exact heq ▸ ih part hpart⟩
    rw [emitter_eq]
    exact ⟨fun _ _ _ => inferInstance, fun _ _ _ => inferInstance⟩

instance (parts : List Component) : AllResolve (emitParts parts) := ⟨fun p hp => by
  obtain ⟨part, -, heq⟩ := mem_emitParts hp
  exact heq ▸ inferInstance⟩

section Types

variable (c : Component) (indent : Nat)

instance : Resolves (constructorText c) := by
  unfold constructorText
  infer_instance

instance (functions : List (String × List MethodKey)) (lines : Lines) :
    Resolves (prototypeMethodLines c indent lines functions) := by
  induction functions generalizing lines <;> unfold prototypeMethodLines <;> infer_instance

instance (kind : HandlerKind) (handlers : Handlers) (lines : Lines) :
    Resolves (prototypeHandlerLines c indent kind handlers lines) := by
  unfold prototypeHandlerLines
  infer_instance

instance : Resolves (prototypeFront c indent) := by
  unfold prototypeFront
  infer_instance

instance (methods : List (MethodKey × Method)) (handlers : Handlers) (lines : Lines) :
    Resolves (prototypeStage c methods handlers indent lines) := by
  unfold prototypeStage
  infer_instance

instance : Resolves (prototypeText c indent) := by
  unfold prototypeText
  infer_instance

instance : Resolves (sectionText c) := by
  refine @Resolves.bind _ _ _ _ ⟨fun _ hR => .modify fun h => hR.usePackage h c.package⟩ fun _ => ?_
  infer_instance

end Types
end QmlScript.Registry
