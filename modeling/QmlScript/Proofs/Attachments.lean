import QmlScript.Proofs.Marking
import QmlScript.Proofs.Numeral

/-!
# Statements that attach methods and handlers

Methods and handlers whose functions have the same text share a variable, and the variables are numbered
through all tables of a component. Here the lines that attach them are statements, and a variable means its
nearest definition in front.
-/

namespace QmlScript.Registry

open List QmlScript.Script

variable {c : Component} {r : Registry}
variable {keep : MethodKey → Bool} {arrange : List MethodKey → List MethodKey}

/-! ## Functions and what shares them -/

/-- Functions with the names of what shares them. -/
abbrev Groups := List (String × List MethodKey)

def functionOf (c : Component) (r : Registry) (entry : MethodKey × Method) : Option String :=
  answer r (functionText c entry.1.2 entry.2)

def groupMembers (groups : Groups) : List (MethodKey × Option String) :=
  groups.flatMap fun group => group.2.map fun key => (key, some group.1)

theorem groupMembers_cons (code : String) (keys : List MethodKey) (groups : Groups) :
    groupMembers ((code, keys) :: groups) = keys.map (fun key => (key, some code)) ++ groupMembers groups := rfl

theorem groupMembers_setEntry (code : String) (key : MethodKey) (groups : Groups) :
    (groupMembers (Table.setEntry code ((Table.lookup code groups).getD [] ++ [key]) groups)).Perm
      (groupMembers groups ++ [(key, some code)]) := by
  induction groups with
  | nil => exact .refl _
  | cons group groups ih =>
    obtain ⟨text, keys⟩ := group
    rw [Table.setEntry, Table.lookup]
    split
    · rename_i heq
      subst heq
      rw [groupMembers_cons, groupMembers_cons, Option.getD_some, map_append, append_assoc, append_assoc]
      exact perm_append_comm.append_left _
    · rw [groupMembers_cons, groupMembers_cons, append_assoc]
      exact ih.append_left _

def joinGroup (c : Component) (r : Registry) (table : Table String (List MethodKey))
    (entry : MethodKey × Method) : Option (Table String (List MethodKey)) :=
  (functionOf c r entry).map fun text => table.insert text ((table.get? text).getD [] ++ [entry.1])

theorem groupMembers_foldlM {entries : List (MethodKey × Method)} {table table' : Table String (List MethodKey)}
    (h : entries.foldlM (joinGroup c r) table = some table') :
    (groupMembers table'.entries).Perm
      (groupMembers table.entries ++ entries.map fun entry => (entry.1, functionOf c r entry)) := by
  induction entries generalizing table with
  | nil =>
    obtain rfl : table = table' := Option.some.inj h
    simp
  | cons entry entries ih =>
    rw [foldlM_cons] at h
    obtain ⟨next, hnext, hrest⟩ := Option.bind_eq_some_iff.mp h
    obtain ⟨text, htext, rfl⟩ := Option.map_eq_some_iff.mp hnext
    have hjoined := (groupMembers_setEntry text entry.1 table.entries).append_right
      (entries.map fun entry => (entry.1, functionOf c r entry))
    rw [append_assoc, ← htext] at hjoined
    exact (ih hrest).trans hjoined

theorem answer_functions (c : Component) (r : Registry) (table : Table MethodKey Method) :
    answer r (functions c table) = (table.entries.foldlM (joinGroup c r) {}).map fun groups =>
      sortBy (fun a b => textLt a.1 b.1) groups.entries := by
  have hjoin : (fun groups entry => answer r (functionText c entry.1.2 entry.2 >>= fun text =>
      pure (groups.insert text ((groups.get? text).getD [] ++ [entry.1])))) = joinGroup c r := by
    funext groups entry
    rw [answer_bind, joinGroup, functionOf]
    cases answer r (functionText c entry.1.2 entry.2) <;> rfl
  unfold functions
  rw [answer_bind, answer_foldlM, Option.map_eq_bind]
  exact congrArg (fun f => (table.entries.foldlM f {}).bind fun groups =>
    some (sortBy (fun a b => textLt a.1 b.1) groups.entries)) hjoin

theorem groupMembers_functions {table : Table MethodKey Method} {groups : Groups}
    (h : answer r (functions c table) = some groups) :
    (groupMembers groups).Perm (table.entries.map fun entry => (entry.1, functionOf c r entry)) := by
  rw [answer_functions] at h
  obtain ⟨sorted, hsorted, rfl⟩ := Option.map_eq_some_iff.mp h
  exact ((sortBy_perm _ sorted.entries).flatMap_right _).trans (groupMembers_foldlM hsorted)

/-- The function of an attachment: written out, or in a shared variable. -/
inductive Code where
  | inline (text : String)
  | shared (number : Nat)

def codeVariable (number : Nat) : String := "$code$" ++ toString number

namespace Code

def text : Code → String
  | inline text => text
  | shared number => codeVariable number

/-- The function that is meant where variables have the given code. -/
def meaning (code : Code) (known : Nat → Option String) : Option String :=
  match code with
  | inline text => some text
  | shared number => known number

end Code

inductive Attachment where
  | define (number : Nat) (code : String)
  | attach (kind : Option HandlerKind) (key : MethodKey) (code : Code)

def defined (known : Nat → Option String) : List Attachment → Nat → Option String
  | [] => known
  | .define number code :: block =>
    defined (fun other => if other = number then some code else known other) block
  | .attach _ _ _ :: block => defined known block

/-- What statements attach of a kind, with its function: a variable means its nearest definition in front, or one of
`known`. -/
def attached (kind : Option HandlerKind) (known : Nat → Option String) :
    List Attachment → List (MethodKey × Option String)
  | [] => []
  | .define number code :: block =>
    attached kind (fun other => if other = number then some code else known other) block
  | .attach other key code :: block =>
    if other = kind then (key, code.meaning known) :: attached kind known block
    else attached kind known block

section

variable (kind other : Option HandlerKind) (known : Nat → Option String) (number : Nat)

theorem attached_append (block block' : List Attachment) :
    attached kind known (block ++ block') =
      attached kind known block ++ attached kind (defined known block) block' := by
  induction block generalizing known with
  | nil => rfl
  | cons statement block ih =>
    cases statement with
    | define number code => exact ih _
    | attach other key code =>
      simp only [cons_append, attached, defined, ih]
      split <;> rfl

theorem attached_map (code : Code) (keys : List MethodKey) :
    attached kind known (keys.map fun key => .attach other key code) =
      if other = kind then keys.map fun key => (key, code.meaning known) else [] := by
  induction keys with
  | nil => simp [attached]
  | cons key keys ih =>
    rw [map_cons, attached, ih]
    split <;> rfl

/-! ## Statements for groups -/

def groupCode (number : Nat) (code : String) (keys : List MethodKey) : Code :=
  if 1 < keys.length then .shared number else .inline code

def groupBlock (kind : Option HandlerKind) (number : Nat) (code : String) (keys : List MethodKey) :
    List Attachment :=
  (if 1 < keys.length then [.define number code] else []) ++
    keys.map fun key => .attach kind key (groupCode number code keys)

def nextNumber (number : Nat) (keys : List MethodKey) : Nat :=
  if 1 < keys.length then number + 1 else number

/-- The statements for groups of one kind, and the next variable. -/
def groupBlocks (kind : Option HandlerKind) : Nat → Groups → List Attachment × Nat
  | number, [] => ([], number)
  | number, (code, keys) :: groups =>
    let rest := groupBlocks kind (nextNumber number keys) groups
    (groupBlock kind number code keys ++ rest.1, rest.2)

theorem attached_groupBlock (code : String) (keys : List MethodKey) :
    attached kind known (groupBlock other number code keys) =
      if other = kind then keys.map fun key => (key, some code) else [] := by
  unfold groupBlock groupCode
  split
  · rw [singleton_append, attached, attached_map]
    simp [Code.meaning]
  · rw [nil_append, attached_map]
    rfl

/-- Each name is attached with the function of its group, whatever variables are in front. -/
theorem attached_groupBlocks (groups : Groups) :
    attached kind known (groupBlocks other number groups).1 = if other = kind then groupMembers groups else [] := by
  induction groups generalizing known number with
  | nil => simp [groupBlocks, attached, groupMembers]
  | cons group groups ih =>
    obtain ⟨code, keys⟩ := group
    rw [groupBlocks]
    dsimp only
    rw [attached_append, attached_groupBlock, ih, groupMembers_cons]
    split <;> rfl

end

/-- The groups with something left out and the rest reordered. -/
def arrangeGroups (arrange : List MethodKey → List MethodKey) (groups : Groups) : Groups :=
  groups.map fun group => (group.1, arrange group.2)

theorem groupMembers_arrangeGroups
    (harrange : ∀ keys, (arrange keys).Perm (keys.filter keep)) (groups : Groups) :
    (groupMembers (arrangeGroups arrange groups)).Perm ((groupMembers groups).filter fun member => keep member.1) := by
  induction groups with
  | nil => exact .refl _
  | cons group groups ih =>
    obtain ⟨code, keys⟩ := group
    have hkeys : (keys.map fun key => (key, some code)).filter (fun member => keep member.1) =
        (keys.filter keep).map fun key => (key, some code) := by
      rw [filter_map]
      rfl
    rw [groupMembers_cons, filter_append, hkeys]
    exact ((harrange keys).map _).append ih

/-- The statements attach exactly the entries, each once with its own function. -/
def Attaches (c : Component) (r : Registry) (entries : Option HandlerKind → List (MethodKey × Method))
    (block : List Attachment) : Prop :=
  ∀ kind, (∀ known, (attached kind known block).Perm
      ((entries kind).map fun entry => (entry.1, functionOf c r entry))) ∧
    ∀ entry ∈ entries kind, (functionOf c r entry).isSome = true

def ofKind (kind : Option HandlerKind) (entries : List (MethodKey × Method)) :
    Option HandlerKind → List (MethodKey × Method) :=
  fun other => if kind = other then entries else []

namespace Attaches

variable {entries entries' : Option HandlerKind → List (MethodKey × Method)} {block block' : List Attachment}

theorem append (h : Attaches c r entries block) (h' : Attaches c r entries' block') :
    Attaches c r (fun kind => entries kind ++ entries' kind) (block ++ block') := by
  intro kind
  refine ⟨fun known => ?_, fun entry hentry => ?_⟩
  · rw [attached_append, map_append]
    exact ((h kind).1 _).append ((h' kind).1 _)
  · rcases mem_append.mp hentry with hentry | hentry
    · exact (h kind).2 entry hentry
    · exact (h' kind).2 entry hentry

theorem nil : Attaches c r (fun _ => []) [] := fun _ => ⟨fun _ => .refl _, by simp⟩

theorem groupBlocks {table : Table MethodKey Method} {groups : Groups}
    (hgroups : answer r (functions c table) = some groups) (kind : Option HandlerKind) (number : Nat)
    (harrange : ∀ keys, (arrange keys).Perm (keys.filter keep)) :
    Attaches c r (ofKind kind (table.entries.filter fun entry => keep entry.1))
      (Registry.groupBlocks kind number (arrangeGroups arrange groups)).1 := by
  have hall := groupMembers_functions hgroups
  have hsome : ∀ entry ∈ table.entries, (functionOf c r entry).isSome = true := by
    intro entry hentry
    have hmem : (entry.1, functionOf c r entry) ∈ groupMembers groups :=
      hall.mem_iff.mpr (mem_map_of_mem hentry)
    obtain ⟨group, -, hgroup⟩ := mem_flatMap.mp hmem
    obtain ⟨key, -, hkey⟩ := mem_map.mp hgroup
    rw [← (Prod.mk.inj hkey).2]
    rfl
  intro other
  unfold ofKind
  refine ⟨fun known => ?_, fun entry hentry => ?_⟩
  · rw [attached_groupBlocks]
    split
    · refine (groupMembers_arrangeGroups harrange groups).trans ((hall.filter _).trans ?_)
      rw [filter_map]
      rfl
    · rfl
  · split at hentry
    · exact hsome entry (mem_of_mem_filter hentry)
    · simp at hentry

end Attaches

/-! ## From table to table -/

/-- Work that writes statements behind others, which attach the entries. -/
structure Appends (c : Component) (r : Registry) (write : Attachment → Option String)
    (entries : Option HandlerKind → List (MethodKey × Method)) (stage : Lines → Work Lines) : Prop where
  resolves : ∀ front, Resolves (stage front)
  written : ∀ front out, answer r (stage front) = some out →
    ∃ block lines, block.mapM write = some lines ∧ out.1 = front.1 ++ lines ∧ Attaches c r entries block

namespace Appends

variable {write : Attachment → Option String}
  {entries entries' : Option HandlerKind → List (MethodKey × Method)} {stage stage' : Lines → Work Lines}

theorem nothing : Appends c r write (fun _ => []) pure where
  resolves _ := inferInstance
  written front out h := by
    obtain rfl := Option.some.inj h
    exact ⟨[], [], rfl, by simp, .nil⟩

theorem bind (h : Appends c r write entries stage) (h' : Appends c r write entries' stage') :
    Appends c r write (fun kind => entries kind ++ entries' kind) fun front => stage front >>= stage' where
  resolves front := @Resolves.bind _ _ _ _ (h.resolves front) h'.resolves
  written front out hout := by
    have := h.resolves
    have := h'.resolves
    rw [answer_bind] at hout
    obtain ⟨middle, hmiddle, hout⟩ := Option.bind_eq_some_iff.mp hout
    obtain ⟨block, lines, hlines, hfront, hblock⟩ := h.written front middle hmiddle
    obtain ⟨block', lines', hlines', hout, hblock'⟩ := h'.written middle out hout
    refine ⟨block ++ block', lines ++ lines', ?_, ?_, hblock.append hblock'⟩
    · rw [mapM_append, hlines, hlines']
      rfl
    · rw [hout, hfront, append_assoc]

theorem congr (h : Appends c r write entries stage) (heq : ∀ kind, entries kind = entries' kind) :
    Appends c r write entries' stage := funext heq ▸ h

end Appends

def definitionLine (indent number : Nat) (code : String) : String :=
  tabs indent ++ "var " ++ codeVariable number ++ " = " ++ code

/-- The line of a statement for the object `parent`. Handlers but those of keys are left out if the object is not
there. -/
def instanceLine (c : Component) (r : Registry) (parent : String) (indent : Nat) :
    Attachment → Option String
  | .define number code => some (definitionLine indent number code)
  | .attach none key code => do
    let object ← answer r (pathOrParent key.1 parent (pathRoot c none))
    let base ← answer r (mangledBaseOf c)
    return tabs indent ++ object ++ "." ++ key.2 ++ " = " ++
      replaceText "@super." (base ++ ".prototype.") code.text ++ ".bind(" ++ parent ++ ")"
  | .attach (some kind) key code => do
    let object ← answer r (pathOrParent key.1 parent (pathRoot c (some parent)))
    return tabs indent ++ (if kind ≠ .key && key.1 ≠ "" then "if (" ++ object ++ ") " else "") ++
      (object ++ "." ++ kind.method ++ "('" ++ key.2 ++ "', " ++ code.text ++ ".bind(" ++ parent ++ "))")

/-- The line of a statement for a prototype, without entries for other objects. -/
def prototypeLine (c : Component) (indent : Nat) : Attachment → Option String
  | .define number code => some (definitionLine indent number code)
  | .attach kind key code =>
    if key.1 ≠ "" then none
    else
      match kind with
      | none => some (tabs indent ++ c.protoName ++ "." ++ key.2 ++ " = " ++
          replaceText "@super." (c.baseProtoName ++ ".") code.text)
      | some kind => some (tabs indent ++ "$core." ++ kind.prototypeMethod ++ "(" ++ c.protoName ++ ", '" ++
          key.2 ++ "', " ++ code.text ++ ")")

/-- Work that writes lines group by group, with `group` for the names of one. -/
structure WritesGroups (indent : Nat) (arrange : List MethodKey → List MethodKey)
    (group : String → List MethodKey → Work (List String))
    (lines : Lines → Groups → Work Lines) : Prop where
  nil : ∀ front, lines front [] = pure front
  cons : ∀ front code keys groups, lines front ((code, keys) :: groups) =
    group (shareCode indent front code (arrange keys).length).2 (arrange keys) >>= fun written =>
      lines ((shareCode indent front code (arrange keys).length).1.1 ++ written,
        (shareCode indent front code (arrange keys).length).1.2) groups
  resolves : ∀ code keys, Resolves (group code keys)

section Lines

variable {indent : Nat} {arrange : List MethodKey → List MethodKey}
  {group : String → List MethodKey → Work (List String)}
  {lines : Lines → Groups → Work Lines} {kind : Option HandlerKind}
  {write : Attachment → Option String} {line : String → MethodKey → Work String}

theorem WritesGroups.resolves_lines (h : WritesGroups indent arrange group lines)
    (groups : Groups) (front : Lines) : Resolves (lines front groups) := by
  have := h.resolves
  induction groups generalizing front with
  | nil =>
    rw [h.nil]
    infer_instance
  | cons entry groups ih =>
    rw [h.cons]
    infer_instance

variable (hdefine : ∀ number code, write (.define number code) = some (definitionLine indent number code))

include hdefine

theorem shareCode_eq (kind : Option HandlerKind) (front : List String) (number : Nat) (code : String)
    (keys : List MethodKey) :
    ∃ definitions, shareCode indent (front, number) code keys.length =
        ((front ++ definitions, nextNumber number keys), (groupCode number code keys).text) ∧
      (groupBlock kind number code keys).mapM write =
        (keys.mapM fun key => write (.attach kind key (groupCode number code keys))).map (definitions ++ ·) := by
  unfold groupBlock groupCode nextNumber shareCode
  split
  · refine ⟨[definitionLine indent number code], rfl, ?_⟩
    rw [singleton_append, mapM_cons, hdefine, mapM_map, Function.comp_def]
    cases keys.mapM fun key => write (.attach kind key (.shared number)) <;> rfl
  · refine ⟨[], by rw [append_nil]; rfl, ?_⟩
    rw [nil_append, mapM_map, Function.comp_def]
    cases keys.mapM fun key => write (.attach kind key (.inline code)) <;> rfl

variable (h : WritesGroups indent arrange group lines)
  (hgroup : ∀ number code keys, answer r (group (groupCode number code (arrange keys)).text (arrange keys)) =
    (arrange keys).mapM fun key => write (.attach kind key (groupCode number code (arrange keys))))

include h hgroup

theorem WritesGroups.answer_lines (front : List String) (number : Nat) (groups : Groups) :
    answer r (lines (front, number) groups) =
      let blocks := groupBlocks kind number (arrangeGroups arrange groups)
      (blocks.1.mapM write).map fun written => (front ++ written, blocks.2) := by
  induction groups generalizing front number with
  | nil =>
    rw [h.nil]
    simp [groupBlocks, arrangeGroups]
  | cons entry groups ih =>
    obtain ⟨code, keys⟩ := entry
    obtain ⟨definitions, hshare, hblock⟩ := shareCode_eq hdefine kind front number code (arrange keys)
    have := h.resolves
    have := h.resolves_lines groups
    rw [h.cons, answer_bind, hshare]
    dsimp only
    rw [hgroup, arrangeGroups, map_cons, groupBlocks]
    dsimp only
    rw [mapM_append, hblock]
    cases (arrange keys).mapM fun key => write (.attach kind key (groupCode number code (arrange keys))) with
    | none => rfl
    | some written =>
      simp only [Option.bind_some, ih, Option.map_some, arrangeGroups]
      cases (groupBlocks kind (nextNumber number (arrange keys))
        (groups.map fun group => (group.1, arrange group.2))).1.mapM write <;> simp

/-- A table of entries is written as the statements for those that are kept. -/
theorem WritesGroups.appends (keep : MethodKey → Bool) (harrange : ∀ keys, (arrange keys).Perm (keys.filter keep))
    (table : Table MethodKey Method) :
    Appends c r write (ofKind kind (table.entries.filter fun entry => keep entry.1))
      fun front => functions c table >>= lines front where
  resolves front := @Resolves.bind _ _ _ _ _ fun groups => h.resolves_lines groups front
  written front out hout := by
    have := fun groups => h.resolves_lines groups front
    rw [answer_bind] at hout
    obtain ⟨groups, hgroups, hout⟩ := Option.bind_eq_some_iff.mp hout
    rw [h.answer_lines hdefine hgroup front.1 front.2 groups] at hout
    obtain ⟨written, hwritten, rfl⟩ := Option.map_eq_some_iff.mp hout
    exact ⟨_, written, hwritten, rfl, .groupBlocks hgroups kind front.2 harrange⟩

omit hdefine h hgroup

theorem mapM_congr {m : Type → Type} [Monad m] [LawfulMonad m] {α β : Type} {f g : α → m β} {as : List α}
    (h : ∀ a ∈ as, f a = g a) : as.mapM f = as.mapM g := by
  induction as with
  | nil => rfl
  | cons a as ih =>
    rw [mapM_cons, mapM_cons, h a mem_cons_self, ih fun a' ha' => h a' (mem_cons_of_mem a ha')]

theorem writesGroups_handlerLines [∀ code key, Resolves (line code key)]
    (harrange : ∀ keys, (arrange keys).Perm keys) :
    WritesGroups indent (fun keys => arrange (keys.filter keep)) (fun code keys => keys.mapM (line code))
      (handlerLines indent keep line arrange) where
  nil _ := rfl
  cons front code keys groups := by
    have hlength := (harrange (keys.filter keep)).length_eq
    rw [handlerLines]
    dsimp only
    rw [hlength]
    cases hkept : keys.filter keep with
    | nil =>
      have hnone : arrange [] = [] := (harrange []).eq_nil
      rw [hnone]
      simp [shareCode]
    | cons key kept => rfl
  resolves _ _ := inferInstance

theorem answer_handlerGroup [∀ code key, Resolves (line code key)] (harrange : ∀ keys, (arrange keys).Perm keys)
    (hattach : ∀ key code, keep key = true →
      write (.attach kind key code) = answer r (line (Code.text code) key)) (code : Code)
    (keys : List MethodKey) :
    answer r ((arrange (keys.filter keep)).mapM (line code.text)) =
      (arrange (keys.filter keep)).mapM fun key => write (.attach kind key code) := by
  rw [answer_mapM]
  refine mapM_congr fun key hkey => (hattach key _ ?_).symm
  exact (mem_filter.mp ((harrange _).mem_iff.mp hkey)).2

section

variable (c : Component) (parent : String) (indent number : Nat) (code : Code) (keys : List MethodKey)
  (written : List String) (state : String × List String) (key : MethodKey)

theorem replaceText_codeVariable (new : String) (number : Nat) :
    replaceText "@super." new (codeVariable number) = codeVariable number := by
  have hchars : '@' ∉ (codeVariable number).toList := by
    rw [codeVariable, String.toList_append, mem_append, not_or]
    refine ⟨by decide, fun h => ?_⟩
    rw [Nat.toString_eq_ofList_toDigits, String.toList_ofList] at h
    exact absurd (Number.isDigit_of_mem_digits number '@' h) (by decide)
  rw [replaceText, Text.replaceAll_of_not_mem (by decide) hchars, String.ofList_toList]

/-- Write one method, with the code that is left by the one before. -/
def methodStep (c : Component) (parent : String) (indent : Nat) (state : String × List String)
    (key : MethodKey) : Work (String × List String) := do
  let object ← pathOrParent key.1 parent (pathRoot c none)
  let base ← mangledBaseOf c
  let code := replaceText "@super." (base ++ ".prototype.") state.1
  return (code, state.2 ++
    [tabs indent ++ object ++ "." ++ key.2 ++ " = " ++ code ++ ".bind(" ++ parent ++ ")"])

instance : Resolves (methodStep c parent indent state key) := by
  unfold methodStep
  infer_instance

theorem answer_methodStep :
    answer r (methodStep c parent indent state key) =
      (answer r (pathOrParent key.1 parent (pathRoot c none))).bind fun object =>
        (answer r (mangledBaseOf c)).map fun base =>
          (replaceText "@super." (base ++ ".prototype.") state.1, state.2 ++ [tabs indent ++ object ++ "." ++
            key.2 ++ " = " ++ replaceText "@super." (base ++ ".prototype.") state.1 ++ ".bind(" ++ parent ++ ")"]) := by
  unfold methodStep
  simp only [answer_bind, answer_pure, Option.map_eq_bind]
  rfl

theorem answer_methodStep_shared :
    answer r (methodStep c parent indent (codeVariable number, written) key) =
      (instanceLine c r parent indent (.attach none key (.shared number))).map fun line =>
        (codeVariable number, written ++ [line]) := by
  rw [answer_methodStep, instanceLine]
  simp only [Code.text, replaceText_codeVariable]
  cases answer r (pathOrParent key.1 parent (pathRoot c none)) <;>
    cases answer r (mangledBaseOf c) <;> rfl

def methodGroup (c : Component) (parent : String) (indent : Nat) (code : String) (keys : List MethodKey) :
    Work (List String) := do
  let state ← keys.foldlM (methodStep c parent indent) (code, [])
  return state.2

theorem writesGroups_methodLines :
    WritesGroups indent (sortBy keyLt) (methodGroup c parent indent) (methodLines c parent indent) where
  nil _ := rfl
  cons front code keys groups := by
    rw [methodLines, methodGroup, bind_assoc, (sortBy_perm keyLt keys).length_eq]
    rfl
  resolves _ _ := by
    unfold methodGroup
    infer_instance

theorem answer_foldlM_shared :
    answer r (keys.foldlM (methodStep c parent indent) (codeVariable number, written)) =
      (keys.mapM fun key => instanceLine c r parent indent (.attach none key (.shared number))).map fun lines =>
        (codeVariable number, written ++ lines) := by
  induction keys generalizing written with
  | nil => simp
  | cons key keys ih =>
    rw [foldlM_cons, mapM_cons, answer_bind, answer_methodStep_shared]
    cases instanceLine c r parent indent (.attach none key (.shared number)) with
    | none => rfl
    | some line =>
      simp only [Option.map_some, Option.bind_some, ih]
      cases keys.mapM fun key => instanceLine c r parent indent (.attach none key (.shared number)) <;> simp

/-- The lines of the methods of a group: a single one has its code written out, several have the variable. -/
theorem answer_methodGroup (code : String) (keys : List MethodKey) :
    answer r (methodGroup c parent indent (groupCode number code keys).text keys) =
      keys.mapM fun key => instanceLine c r parent indent (.attach none key (groupCode number code keys)) := by
  unfold methodGroup groupCode
  rw [answer_bind]
  split
  · rw [Code.text, answer_foldlM_shared]
    cases keys.mapM fun key => instanceLine c r parent indent (.attach none key (.shared number)) <;> rfl
  · rename_i hone
    match keys with
    | [] => rfl
    | [key] =>
      simp only [foldlM_cons, foldlM_nil, bind_pure, mapM_cons, mapM_nil, answer_methodStep, instanceLine]
      cases answer r (pathOrParent key.1 parent (pathRoot c none)) <;>
        cases answer r (mangledBaseOf c) <;> rfl
    | _ :: _ :: _ => simp at hone

def prototypeStep (c : Component) (indent : Nat) (code : String) (key : MethodKey) : Work String := do
  if key.1 ≠ "" then throw (.qualifiedMethod key.1 key.2 c.name)
  return tabs indent ++ c.protoName ++ "." ++ key.2 ++ " = " ++
    replaceText "@super." (c.baseProtoName ++ ".") code

instance (code : String) (key : MethodKey) : Resolves (prototypeStep c indent code key) := by
  unfold prototypeStep
  infer_instance

theorem writesGroups_prototypeMethodLines :
    WritesGroups indent id (fun code keys => keys.mapM (prototypeStep c indent code))
      (prototypeMethodLines c indent) where
  nil _ := rfl
  cons _ _ _ _ := rfl
  resolves _ _ := inferInstance

theorem answer_prototypeGroup :
    answer r (keys.mapM (prototypeStep c indent code.text)) =
      keys.mapM fun key => prototypeLine c indent (.attach none key code) := by
  rw [answer_mapM]
  refine mapM_congr fun key _ => ?_
  rw [prototypeStep, prototypeLine]
  split <;> rfl

end

end Lines

end QmlScript.Registry
