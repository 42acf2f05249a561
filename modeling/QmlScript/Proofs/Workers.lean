import QmlScript.Proofs.Looking
import QmlScript.Proofs.Calls

/-!
# Workers

A program that workers help with is the program that is made without them: what sources do to a program and
what scripts, catalogs and manifests do concerns different parts of it, and what comes of a source is known
from its text.
-/

namespace QmlScript

open List Option

variable {promise : Promise} {draft : Draft}

/-! ## The two parts of a program -/

namespace Registry

/-- A registry with the findings of a walk, and the components that come from sources. -/
def combine (walk sources : Registry) : Registry :=
  { sources with module := walk.module, imports := walk.imports, l10n := walk.l10n }

/-- Work goes on in the same way in registries that a change leads to. -/
def Ignores {α : Type} (change : Registry → Registry) (work : Work α) : Prop :=
  ∀ r, run work (change r) = ((run work r).1, change (run work r).2)

theorem Ignores.bind {α β : Type} {change : Registry → Registry} {work : Work α} {f : α → Work β}
    (h : Ignores change work) (hf : ∀ a, Ignores change (f a)) : Ignores change (work >>= f) := by
  intro r
  rw [run_bind, run_bind, h r]
  obtain ⟨e | a, s⟩ := run work r
  · rfl
  · exact hf a s

theorem ignores_addComponent (walk : Registry) (name : String) (tree : Tree) (declaration : Bool) :
    Ignores (combine walk) (addComponent name tree declaration) := by
  intro r
  have hrun := run_add ⟨name, tree, declaration⟩
  simp only [Call.work] at hrun
  rw [hrun, hrun]
  by_cases hknown : r.components.contains name
  · rw [if_pos hknown, if_pos (show (combine walk r).components.contains name from hknown)]
  rw [if_neg hknown, if_neg (show ¬(combine walk r).components.contains name from hknown)]
  cases Addition.key? ⟨name, tree, declaration⟩ with
  | none => rfl
  | some key =>
    dsimp only
    cases Component.build key true tree <;> cases declaration <;> rfl

theorem ignores_scanUsing (walk : Registry) (code : String) : Ignores (combine walk) (scanUsing code) := by
  intro r
  rw [run_scanUsing, run_scanUsing]
  refine congrArg (Prod.mk _) ?_
  generalize requests code = names
  induction names generalizing r with
  | nil => rfl
  | cons name names ih => exact ih (request r name)

theorem ignores_addScript (sources : Registry) (name code : String) :
    Ignores (combine · sources) (addScript name code) := by
  intro r
  unfold addScript
  rw [run_bind, run_bind, run_get, run_get]
  dsimp only
  by_cases hknown : r.imports.contains name
  · rw [if_pos hknown, if_pos (show (combine r sources).imports.contains name from hknown)]
    rfl
  · rw [if_neg hknown, if_neg (show ¬(combine r sources).imports.contains name from hknown)]
    rfl

end Registry

namespace Compile

open Job

/-- A program with the findings of a walk, and what comes from sources. -/
def Program.combine (walk sources : Program) : Program :=
  { sources with
    registry := walk.registry.combine sources.registry
    paths := walk.paths
    properties := walk.properties
    strict := walk.strict }

theorem Program.combine_self (program : Program) : program.combine program = program := rfl

instance (program : Program) (work : Work Unit) : Looks (fill program work) := by
  unfold fill onRegistry
  rcases Registry.run work program.registry with ⟨e | a, r⟩ <;> dsimp only <;> infer_instance

/-- Work that ignores a change of the registry ignores it as a change of the program. -/
theorem gives_fill {tree : FileTree} {work : Work Unit} {change : Registry → Registry}
    (h : Registry.Ignores change work) (alter : Program → Program) (program : Program)
    (halter : ∀ r, { alter program with registry := change r } = alter { program with registry := r }) :
    gives tree (fill (alter program) work) = (gives tree (fill program work)).map alter := by
  have hregistry : change program.registry = (alter program).registry :=
    congrArg Program.registry (halter program.registry)
  unfold fill onRegistry
  rw [← hregistry, h program.registry]
  rcases Registry.run work program.registry with ⟨e | a, r⟩
  · rfl
  · exact congrArg some (halter r)

/-! ## What a step leaves to workers -/

def walkStep (reader : Reader) (settings : Settings) (program : Program) : Step → Job Program
  | .manifest manifest => applyManifest settings program manifest
  | .file package directory file =>
    let program := { program with paths := program.paths.insert file directory }
    match task? settings.app package directory file with
    | some (.script name path) => perform reader settings program (.script name path)
    | some (.catalog path) => perform reader settings program (.catalog path)
    | _ => return program
  | .stop cause => throw cause

def sourcesOf (settings : Settings) : Step → List Promise
  | .file package directory file =>
    match task? settings.app package directory file with
    | some (.source name path isComponent) => [{ name, path, isComponent }]
    | _ => []
  | _ => []

section

variable {tree : FileTree} {settings : Settings} {reader : Reader}
variable (program walk sources : Program) (name path : String)

instance (manifest : Manifest) : Looks (applyManifest settings program manifest) := by
  unfold applyManifest
  infer_instance

instance : Looks (perform reader settings program (.script name path)) := by
  refine @Looks.bind _ _ _ _ inferInstance fun text => ?_
  split <;> infer_instance

instance (catalog : Localization.Catalog) : Looks (addCatalog program catalog) := ⟨fun _ => ⟨rfl, rfl⟩⟩

def loadCatalog (program : Program) (path : String) (tree : FileTree) : Job Program := do
  addCatalog program (← Job.ofExcept .catalog (Localization.Catalog.load tree path none))

instance : Looks (perform reader settings program (.catalog path)) := looks_get_bind fun _ _ h => by rw [h]

theorem gives_catalog :
    gives tree (perform reader settings program (.catalog path)) = gives tree (loadCatalog program path tree) :=
  congrArg Except.toOption (answer_tree (loadCatalog program path))

theorem exportProgram_combine (exported : Json) :
    exportProgram (walk.combine sources) exported = (exportProgram walk exported).map (·.combine sources) := by
  unfold exportProgram
  cases exported.isTruthy
  · rfl
  · cases exported <;> rfl

theorem gives_applyManifest_combine (manifest : Manifest) :
    gives tree (applyManifest settings (walk.combine sources) manifest) =
      (gives tree (applyManifest settings walk manifest)).map (·.combine sources) := by
  simp only [applyManifest, Job.setting, gives_ofExcept_bind, exportProgram_combine]
  rcases manifest.exportModule with e | exported
  · rfl
  dsimp only [Except.toOption, bind_some]
  rcases exportProgram walk exported with e | walk
  · rfl
  rcases manifest.strict with e | strict
  · rfl
  dsimp only [Except.toOption, Except.map, bind_some]
  -- the properties below a walk are those of the walk
  rw [show (walk.combine sources).properties = walk.properties from rfl]
  rcases (do Setting.merge walk.properties (← manifest.properties) : Except SettingError Json) with e | properties
  · rfl
  rcases manifest.useOnlyFor with e | useOnlyFor
  · rfl
  dsimp only [Except.toOption, bind_some]
  rcases isForPlatforms useOnlyFor settings.platforms with e | isFor <;> rfl

theorem gives_script :
    gives tree (perform reader settings program (.script name path)) =
      (tree.read path).toOption.bind fun text => gives tree (fill program (Registry.addScript name text)) := by
  unfold perform
  rw [gives, answer, runIn_bind, runIn_look]
  cases tree.read path with
  | error e => rfl
  | ok text =>
    cases settings.verbose with
    | true => exact gives_bind
    | false => rfl

theorem gives_script_combine :
    gives tree (perform reader settings (walk.combine sources) (.script name path)) =
      (gives tree (perform reader settings walk (.script name path))).map (·.combine sources) := by
  rw [gives_script, gives_script, map_bind]
  refine congrArg _ (funext fun text => ?_)
  have hscript := Registry.ignores_addScript sources.registry name text
  exact gives_fill hscript (Program.combine · sources) walk fun _ => rfl

theorem gives_loadCatalog_combine :
    gives tree (loadCatalog (walk.combine sources) path tree) =
      (gives tree (loadCatalog walk path tree)).map (·.combine sources) := by
  simp only [loadCatalog, gives_ofExcept_bind]
  rcases Localization.Catalog.load tree path none with e | catalog
  · rfl
  dsimp only [Except.toOption, bind_some]
  have hgives : ∀ program, gives tree (addCatalog program catalog) =
    some { program with registry := (Registry.addCatalog catalog program.registry).1 } := fun _ => rfl
  rw [hgives, hgives]
  unfold Registry.addCatalog
  cases catalog.language with
  | none => rfl
  | some language =>
    dsimp only
    split <;> rfl

theorem gives_walkStep_combine (step : Step) :
    gives tree (walkStep reader settings (walk.combine sources) step) =
      (gives tree (walkStep reader settings walk step)).map (·.combine sources) := by
  cases step with
  | manifest manifest => exact gives_applyManifest_combine walk sources manifest
  | stop cause => rfl
  | file package directory file =>
    unfold walkStep
    dsimp only
    split
    · exact gives_script_combine { walk with paths := walk.paths.insert file directory } sources _ _
    · rw [gives_catalog, gives_catalog]
      exact gives_loadCatalog_combine { walk with paths := walk.paths.insert file directory } sources _
    · rfl

/-- What becomes of a source is the same with anything that a walk found. -/
theorem gives_addSource_combine (isComponent : Bool) (source : Parsed) :
    gives tree (addSource (walk.combine sources) name isComponent source) =
      (gives tree (addSource sources name isComponent source)).map walk.combine := by
  have hsource := (Registry.ignores_addComponent walk.registry name source.tree isComponent).bind
    fun _ => Registry.ignores_scanUsing walk.registry source.text
  exact gives_fill hsource walk.combine (sources.document name isComponent source) fun _ => rfl

instance (isComponent : Bool) (source : Parsed) : Looks (addSource program name isComponent source) :=
  inferInstanceAs (Looks (fill _ _))

end

def readText (parse : String → Except Grammar.ParseError Tree) : Reader := fun _ _ path => do
  let text ← Job.look fun tree => tree.read path
  match parse text with
  | .ok tree => return { tree, text, isNew := true }
  | .error cause => throw (.source path text cause)

section

variable {parse : String → Except Grammar.ParseError Tree} {tree : FileTree} {settings : Settings}
  {schedule : Schedule}

variable (progress : Progress) (number : Nat) (jobs : Int) (program : Program) {source : Promise}
  {promises sources : List Promise}

instance (isHeard : Bool) (name path : String) : Looks (readText parse isHeard name path) := by
  have hparsed : ∀ text, Looks (match parse text with
      | .ok tree => pure { tree, text, isNew := true }
      | .error cause => throw (.source path text cause) : Job Parsed) := by
    intro text
    cases parse text <;> dsimp only <;> infer_instance
  unfold readText
  infer_instance

variable (parse tree) in
def outcome (source : Promise) : Except BuildError Parsed :=
  answer tree (readText parse false source.name source.path)

variable (parse tree) in
/-- A promise about a source is kept with what comes of it. -/
structure Promise.IsAbout (promise source : Promise) : Prop where
  name : promise.name = source.name
  path : promise.path = source.path
  isComponent : promise.isComponent = source.isComponent
  answer : ∀ found, promise.answer = some found → found = outcome parse tree source

variable (parse tree) in
abbrev AreAbout : List Promise → List Promise → Prop := List.Forall₂ (Promise.IsAbout parse tree)

theorem AreAbout.get (h : AreAbout parse tree promises sources) {number : Nat}
    (hsource : sources[number]? = some source) :
    ∃ promise, promises[number]? = some promise ∧ promise.IsAbout parse tree source := by
  induction h generalizing number with
  | nil => cases hsource
  | cons habout _ ih =>
    cases number with
    | zero => exact ⟨_, rfl, some.inj hsource ▸ habout⟩
    | succ number => exact ih hsource

theorem AreAbout.set (h : AreAbout parse tree promises sources) {number : Nat}
    (hsource : sources[number]? = some source) (habout : promise.IsAbout parse tree source) :
    AreAbout parse tree (promises.set number promise) sources := by
  induction h generalizing number with
  | nil => exact .nil
  | cons hfirst hrest ih =>
    cases number with
    | zero => exact .cons (some.inj hsource ▸ habout) hrest
    | succ number => exact .cons hfirst (ih hsource)

instance (promise : Promise) : Looks (promise.settle (readText parse)) := by
  unfold Promise.settle
  cases promise.answer <;> dsimp only <;> infer_instance

instance (promises : List Promise) (number : Nat) : Looks (settleAt (readText parse) promises number) := by
  unfold settleAt
  cases promises[number]? <;> dsimp only <;> infer_instance

variable (parse tree) in
def Promise.keep (promise source : Promise) : Promise :=
  { promise with answer := some (outcome parse tree source) }

theorem Promise.IsAbout.keep (h : promise.IsAbout parse tree source) :
    (promise.keep parse tree source).IsAbout parse tree source :=
  ⟨h.name, h.path, h.isComponent, fun _ hfound => (some.inj hfound).symm⟩

/-- A promise is kept in the same way now or before. -/
theorem answer_settle (h : promise.IsAbout parse tree source) :
    answer tree (promise.settle (readText parse)) = .ok (promise.keep parse tree source) := by
  obtain ⟨name, path, isComponent, kept⟩ := promise
  cases kept with
  | none =>
    have hsettle : answer tree (Promise.settle (readText parse) ⟨name, path, isComponent, none⟩) =
        .ok ⟨name, path, isComponent, some (answer tree (readText parse false name path))⟩ :=
      answer_bind
    rw [hsettle]
    obtain rfl : name = source.name := h.name
    obtain rfl : path = source.path := h.path
    rfl
  | some found =>
    obtain rfl := h.answer found rfl
    rfl

theorem answer_settleAt {promises : List Promise} {number : Nat}
    (hpromise : promises[number]? = some promise) (h : promise.IsAbout parse tree source) :
    answer tree (settleAt (readText parse) promises number) =
      .ok (promises.set number (promise.keep parse tree source)) := by
  unfold settleAt
  rw [hpromise]
  dsimp only
  rw [answer_bind, answer_settle h]
  rfl

theorem answer_settleAll (h : AreAbout parse tree promises sources) (numbers : List Nat) :
    ∃ promises', answer tree (numbers.foldlM (settleAt (readText parse)) promises) = .ok promises' ∧
      AreAbout parse tree promises' sources := by
  induction numbers generalizing promises with
  | nil => exact ⟨promises, rfl, h⟩
  | cons number numbers ih =>
    rw [foldlM_cons, answer_bind]
    cases hsource : sources[number]? with
    | some source =>
      obtain ⟨promise, hpromise, habout⟩ := h.get hsource
      rw [answer_settleAt hpromise habout]
      exact ih (h.set hsource habout.keep)
    | none =>
      -- there is no such promise, and nothing happens
      have hpromise : promises[number]? = none := by
        rw [List.getElem?_eq_none_iff, h.length_eq]
        exact List.getElem?_eq_none_iff.1 hsource
      have hsettle : settleAt (readText parse) promises number = pure promises := by
        unfold settleAt
        rw [hpromise]
      rw [hsettle]
      exact ih h

/-! ## Work in progress without workers -/

theorem rel_bind {α β γ δ : Type} {R : α → β → Prop} {S : γ → δ → Prop} {a? : Option α} {b? : Option β}
    {f : α → Option γ} {g : β → Option δ} (h : Option.Rel R a? b?)
    (hfg : ∀ a b, R a b → Option.Rel S (f a) (g b)) : Option.Rel S (a?.bind f) (b?.bind g) := by
  cases h with
  | some hab => exact hfg _ _ hab
  | none => exact .none

/-- A program in the making, and the sources that are still to be taken in. -/
structure Draft where
  program : Program
  sources : List Promise := []

variable (parse tree) in
def takeSource (program : Program) (source : Promise) : Option Program :=
  (outcome parse tree source).toOption.bind fun found =>
    gives tree (addSource program source.name source.isComponent found)

variable (parse tree settings) in
/-- Go on with another program and new sources: at once, or later if there are workers. -/
def Draft.goOn (draft : Draft) (program : Program) (sources : List Promise) : Option Draft :=
  if settings.jobs = 1 then
    (sources.foldlM (takeSource parse tree) program).map fun program => { draft with program }
  else some { program, sources := draft.sources ++ sources }

variable (parse tree settings) in
def Draft.step (draft : Draft) (step : Step) : Option Draft :=
  (gives tree (walkStep (readText parse) settings draft.program step)).bind fun program =>
    draft.goOn parse tree settings program (sourcesOf settings step)

theorem Draft.goOn_nil (draft : Draft) (program : Program) :
    draft.goOn parse tree settings program [] = some { draft with program } := by
  by_cases hjobs : settings.jobs = 1
  · simp [Draft.goOn, hjobs]
  · simp [Draft.goOn, hjobs]

variable (parse tree) in
structure Progress.Fits (progress : Progress) (draft : Draft) : Prop where
  program : progress.program = draft.program
  promises : AreAbout parse tree progress.promises draft.sources

instance : Looks (progress.tick (readText parse) schedule) := by
  unfold Progress.tick
  infer_instance

instance (task : Task) : Looks (perform (readText parse) settings program task) := by
  cases task with
  | source name path isComponent => exact @Looks.bind _ _ _ _ inferInstance fun _ => inferInstance
  | _ => infer_instance

instance (task : Task) : Looks (passTask (readText parse) settings progress program task) := by
  unfold passTask
  cases promise? settings task <;> dsimp only <;> infer_instance

instance (package directory file : String) :
    Looks (passFile (readText parse) settings progress package directory file) := by
  unfold passFile
  cases task? settings.app package directory file <;> dsimp only <;> infer_instance

instance (step : Step) : Looks (takeStep (readText parse) settings schedule progress step) := by
  unfold takeStep
  cases step <;> dsimp only <;> infer_instance

instance : Looks (progress.takeIn number) := by
  unfold Progress.takeIn
  split <;> infer_instance

instance : Looks (collect (readText parse) schedule progress number) := by
  unfold collect
  infer_instance

theorem gives_source (name path : String) (isComponent : Bool) :
    gives tree (perform (readText parse) settings program (.source name path isComponent)) =
      takeSource parse tree program { name, path, isComponent } :=
  gives_bind

section

variable {progress} (h : progress.Fits parse tree draft)
include h

variable (schedule) in
/-- Workers change nothing that a draft tells, at any moment. -/
theorem gives_tick :
    ∃ progress', gives tree (progress.tick (readText parse) schedule) = some progress' ∧
      progress'.Fits parse tree draft := by
  obtain ⟨promises, hanswer, habout⟩ := answer_settleAll h.promises (schedule progress.moment)
  refine ⟨{ progress with promises, moment := progress.moment + 1 }, ?_, ⟨h.program, habout⟩⟩
  rw [Progress.tick, gives_bind, gives, hanswer]
  rfl

/-- Work that goes on with another program, beside a draft that does. -/
theorem rel_program (job : Job Program) [Looks job] :
    Option.Rel (Progress.Fits parse tree) (gives tree do return { progress with program := ← job })
      ((gives tree job).bind fun program => draft.goOn parse tree settings program []) := by
  rw [gives_bind_pure]
  cases gives tree job with
  | none => exact .none
  | some program =>
    rw [bind_some, Draft.goOn_nil]
    exact .some ⟨rfl, h.promises⟩

theorem rel_source (program : Program) (name path : String) (isComponent : Bool) :
    Option.Rel (Progress.Fits parse tree)
      (gives tree (passTask (readText parse) settings progress program (.source name path isComponent)))
      (draft.goOn parse tree settings program [{ name, path, isComponent }]) := by
  unfold passTask Draft.goOn
  by_cases hjobs : settings.jobs = 1
  · have hpromise : promise? settings (.source name path isComponent) = none := if_pos hjobs
    rw [hpromise, if_pos hjobs]
    dsimp only
    rw [gives_bind_pure, gives_source, foldlM_cons]
    cases takeSource parse tree program { name, path, isComponent } with
    | none => exact .none
    | some program => exact .some ⟨rfl, h.promises⟩
  · have hpromise : promise? settings (.source name path isComponent) = some { name, path, isComponent } :=
      if_neg hjobs
    have habout : Promise.IsAbout parse tree { name, path, isComponent } { name, path, isComponent } :=
      ⟨rfl, rfl, rfl, fun _ hfound => nomatch hfound⟩
    rw [hpromise, if_neg hjobs]
    exact .some ⟨rfl, rel_append h.promises (.cons habout .nil)⟩

theorem rel_passFile (package directory file : String) :
    Option.Rel (Progress.Fits parse tree)
      (gives tree (passFile (readText parse) settings progress package directory file))
      (draft.step parse tree settings (.file package directory file)) := by
  unfold passFile Draft.step walkStep sourcesOf
  dsimp only
  rw [h.program]
  generalize task? settings.app package directory file = task?
  generalize { draft.program with paths := draft.program.paths.insert file directory } = program
  cases task? with
  | none => exact rel_program h (pure program)
  | some task =>
    cases task with
    | source name path isComponent => exact rel_source h program name path isComponent
    | script name path => exact rel_program h (perform _ settings program (.script name path))
    | catalog path => exact rel_program h (perform _ settings program (.catalog path))

theorem rel_takeStep (step : Step) :
    Option.Rel (Progress.Fits parse tree) (gives tree (takeStep (readText parse) settings schedule progress step))
      (draft.step parse tree settings step) := by
  cases step with
  | manifest manifest =>
    rw [Draft.step, ← h.program]
    exact rel_program h (applyManifest _ _ _)
  | stop cause => exact .none
  | file package directory file =>
    obtain ⟨progress', htick, hfits⟩ := gives_tick schedule h
    rw [takeStep, gives_bind, htick, bind_some]
    exact rel_passFile hfits package directory file

theorem rel_takeSteps (steps : List Step) :
    Option.Rel (Progress.Fits parse tree)
      (gives tree (steps.foldlM (takeStep (readText parse) settings schedule) progress))
      (steps.foldlM (Draft.step parse tree settings) draft) := by
  induction steps generalizing progress draft with
  | nil => exact .some h
  | cons step steps ih =>
    rw [foldlM_cons, foldlM_cons, gives_bind]
    exact rel_bind (rel_takeStep h step) fun _ _ h => ih h

end

variable (tree settings) in
def projectSteps (project : String) : List Step :=
  match settings.manifest.package with
  | .ok package => plan project (Naming.start project package) (stations settings.platforms tree project)
  | .error cause => [.stop (.setting cause)]

variable (tree settings) in
def allSteps : List Step := settings.projects.flatMap (projectSteps tree settings)

instance (project : String) : Looks (passProject (readText parse) settings schedule progress project) := by
  have hsteps : ∀ package, Looks (get >>= fun w : Workspace =>
      (plan project (Naming.start project package) (stations settings.platforms w.tree project)).foldlM
        (takeStep (readText parse) settings schedule) progress) := fun _ => looks_get_bind fun _ _ h => by rw [h]
  unfold passProject
  infer_instance

theorem gives_passProject (project : String) :
    gives tree (passProject (readText parse) settings schedule progress project) =
      gives tree ((projectSteps tree settings project).foldlM
        (takeStep (readText parse) settings schedule) progress) := by
  unfold passProject projectSteps
  rw [Job.setting, gives_ofExcept_bind]
  cases settings.manifest.package with
  | error cause => rfl
  | ok package =>
    exact congrArg Except.toOption (answer_tree fun tree =>
      (plan project (Naming.start project package) (stations settings.platforms tree project)).foldlM
        (takeStep (readText parse) settings schedule) progress)

variable (settings schedule) in
theorem rel_passAll {progress : Progress} (h : progress.Fits parse tree draft) (projects : List String) :
    Option.Rel (Progress.Fits parse tree)
      (gives tree (projects.foldlM (passProject (readText parse) settings schedule) progress))
      ((projects.flatMap (projectSteps tree settings)).foldlM (Draft.step parse tree settings) draft) := by
  induction projects generalizing progress draft with
  | nil => exact .some h
  | cons project projects ih =>
    rw [foldlM_cons, flatMap_cons, foldlM_append,
      gives_bind, gives_passProject]
    exact rel_bind (rel_takeSteps h _) fun _ _ h => ih h

/-! ## Behind the walk -/

theorem gives_takeIn {progress : Progress} {number : Nat} (habout : promise.IsAbout parse tree source)
    (hpromise : progress.promises[number]? = some (promise.keep parse tree source)) :
    gives tree (progress.takeIn number) =
      (takeSource parse tree progress.program source).map fun program => { progress with program } := by
  unfold Progress.takeIn takeSource
  rw [hpromise]
  dsimp only [Promise.keep]
  rw [gives_ofExcept_bind, map_bind, habout.name, habout.isComponent]
  exact congrArg _ (funext fun found => gives_bind_pure _)

section

variable {progress} (h : progress.Fits parse tree draft)
include h

theorem rel_collect {number : Nat} (hsource : draft.sources[number]? = some source) :
    Option.Rel (Progress.Fits parse tree) (gives tree (collect (readText parse) schedule progress number))
      ((takeSource parse tree draft.program source).map fun program => { draft with program }) := by
  obtain ⟨progress', htick, h'⟩ := gives_tick schedule h
  obtain ⟨promise, hpromise, habout⟩ := h'.promises.get hsource
  have hsettle := congrArg Except.toOption (answer_settleAt hpromise habout)
  have hkept : (progress'.promises.set number (promise.keep parse tree source))[number]? =
      some (promise.keep parse tree source) :=
    getElem?_set_self (List.getElem?_eq_some_iff.1 hpromise).1
  rw [collect, gives_bind, htick, bind_some, gives_bind, gives, hsettle]
  dsimp only [Except.toOption, bind_some]
  rw [gives_takeIn habout hkept, h'.program]
  cases takeSource parse tree draft.program source with
  | none => exact .none
  | some program => exact .some ⟨rfl, h'.promises.set hsource habout.keep⟩

variable (schedule) in
/-- Taking in what the workers were given, one source after the other. -/
theorem rel_collectAll {count : Nat} (hcount : count ≤ draft.sources.length) :
    Option.Rel (Progress.Fits parse tree)
      (gives tree ((List.range count).foldlM (collect (readText parse) schedule) progress))
      (((draft.sources.take count).foldlM (takeSource parse tree) draft.program).map fun program =>
        { draft with program }) := by
  induction count with
  | zero => exact .some h
  | succ count ih =>
    have hsource := getElem?_eq_getElem (l := draft.sources) hcount
    rw [range_succ, foldlM_append, gives_bind, take_add_one, hsource, foldlM_append]
    have hbefore := ih (by omega)
    generalize gives tree ((List.range count).foldlM _ progress) = progress? at hbefore ⊢
    generalize (draft.sources.take count).foldlM (takeSource parse tree) draft.program = program? at hbefore ⊢
    cases program? with
    | none => cases hbefore with | none => exact .none
    | some program =>
      cases hbefore with
      | some hfits =>
        simp only [toList, foldlM_cons, foldlM_nil, bind_pure, bind_some, bind_eq_bind]
        exact rel_collect hfits hsource

end

variable (parse tree) in
def Draft.finish (draft : Draft) : Option Program := draft.sources.foldlM (takeSource parse tree) draft.program

instance : Looks (passProjects (readText parse) settings schedule program) := by
  unfold passProjects
  infer_instance

theorem gives_passProjects :
    gives tree (passProjects (readText parse) settings schedule program) =
      ((allSteps tree settings).foldlM (Draft.step parse tree settings) { program }).bind
        (Draft.finish parse tree) := by
  have hstart : Progress.Fits parse tree { program } { program } := ⟨rfl, .nil⟩
  have hwalk := rel_passAll settings schedule hstart settings.projects
  rw [passProjects, gives_bind, allSteps]
  generalize gives tree (settings.projects.foldlM _ _) = progress? at hwalk ⊢
  generalize List.foldlM (Draft.step parse tree settings) _ _ = draft? at hwalk ⊢
  cases hwalk with
  | none => rfl
  | @some progress draft hfits =>
    have hrest := rel_collectAll schedule hfits (Nat.le_refl _)
    rw [bind_some, bind_some, gives_bind_pure, hfits.promises.length_eq]
    rw [take_length] at hrest
    unfold Draft.finish
    generalize gives tree (List.foldlM _ _ _) = progress? at hrest ⊢
    generalize draft.sources.foldlM (takeSource parse tree) draft.program = program? at hrest ⊢
    cases program? with
    | none => cases hrest with | none => rfl
    | some program => cases hrest with | some hdone => exact congrArg some hdone.program

/-! ## Walks and sources -/

theorem foldlM_takeSource_combine (walk program : Program) (sources : List Promise) :
    sources.foldlM (takeSource parse tree) (walk.combine program) =
      (sources.foldlM (takeSource parse tree) program).map walk.combine := by
  induction sources generalizing program with
  | nil => rfl
  | cons source sources ih =>
    have hsource : takeSource parse tree (walk.combine program) source =
        (takeSource parse tree program source).map walk.combine := by
      unfold takeSource
      rw [map_bind]
      exact congrArg _ (funext fun found => gives_addSource_combine walk program _ _ found)
    rw [foldlM_cons, foldlM_cons, hsource]
    cases takeSource parse tree program source with
    | none => rfl
    | some program => exact ih program

/-- A draft is finished by a walk and by sources, which only wait if there are workers. -/
theorem finish_steps (steps : List Step) (walk program : Program) (waiting : List Promise)
    (h : settings.jobs = 1 → waiting = []) :
    (steps.foldlM (Draft.step parse tree settings) { program := walk.combine program, sources := waiting }).bind
        (Draft.finish parse tree) =
      (steps.foldlM (fun walk step => gives tree (walkStep (readText parse) settings walk step)) walk).bind
        fun walk => ((waiting ++ steps.flatMap (sourcesOf settings)).foldlM
          (takeSource parse tree) program).map walk.combine := by
  induction steps generalizing walk program waiting with
  | nil =>
    rw [flatMap_nil, append_nil]
    exact foldlM_takeSource_combine walk program waiting
  | cons step steps ih =>
    rw [foldlM_cons, foldlM_cons, flatMap_cons, Draft.step, gives_walkStep_combine]
    cases gives tree (walkStep (readText parse) settings walk step) with
    | none => rfl
    | some walk =>
      dsimp only [map_some, bind_eq_bind, bind_some]
      unfold Draft.goOn
      by_cases hjobs : settings.jobs = 1
      · obtain rfl := h hjobs
        rw [if_pos hjobs, foldlM_takeSource_combine, nil_append, foldlM_append]
        cases (sourcesOf settings step).foldlM (takeSource parse tree) program with
        | none =>
          -- the walk may go on, but in vain
          simp
        | some program => exact ih walk program [] fun _ => rfl
      · rw [if_neg hjobs, ← append_assoc]
        exact ih walk program (waiting ++ sourcesOf settings step) fun hone => absurd hone hjobs

theorem sourcesOf_jobs : sourcesOf { settings with jobs } = sourcesOf settings := by
  funext step
  cases step with
  | file package directory file =>
    unfold sourcesOf
    dsimp only
  | _ => rfl

theorem walkStep_jobs {reader : Reader} (step : Step) :
    walkStep reader { settings with jobs } program step = walkStep reader settings program step := by
  cases step with
  | file package directory file =>
    unfold walkStep
    dsimp only
    generalize task? settings.app package directory file = task?
    rfl
  | _ => rfl

theorem allSteps_jobs : allSteps tree { settings with jobs } = allSteps tree settings := rfl

end

/-- Workers make the same program as no workers, or both make none. The moments when they finish with
sources do not matter. -/
theorem passProjects_jobs (parse : String → Except Grammar.ParseError Tree) (settings : Settings) (jobs : Int)
    (schedule schedule' : Schedule) (program : Program) (w : Workspace) :
    ((passProjects (readText parse) { settings with jobs } schedule program).runIn w).1.toOption =
      ((passProjects (readText parse) { settings with jobs := 1 } schedule' program).runIn w).1.toOption := by
  rw [(Looks.runIn_eq w).1, (Looks.runIn_eq w).1]
  show gives w.tree _ = gives w.tree _
  rw [gives_passProjects, gives_passProjects, ← program.combine_self, finish_steps _ _ _ _ fun _ => rfl,
    finish_steps _ _ _ _ fun _ => rfl]
  simp only [sourcesOf_jobs, walkStep_jobs, allSteps_jobs]

end Compile
end QmlScript
