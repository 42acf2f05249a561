import QmlScript.Proofs.Expanded
import QmlScript.Proofs.Workers

/-!
# Properties that a walk merges

The properties of a program come from the manifests of its projects, and from nothing else: they are merged in
the order of the walk, so the last manifest that sets a property to a value which is no object gives its
value.
-/

namespace QmlScript.Compile

open Job Setting List

section Yields

variable {α β : Type} {P : α → Prop} {Q : β → Prop} {job : Job α} {f : α → Job β}

def Yields (P : α → Prop) (job : Job α) : Prop := ∀ w a w', job.runIn w = (.ok a, w') → P a

theorem Yields.pure {a : α} (h : P a) : Yields P (Pure.pure a : Job α) := by
  intro w a' w' hrun
  cases hrun
  exact h

theorem Yields.throw (e : BuildError) : Yields P (throw e : Job α) := fun _ _ _ h => nomatch h

theorem runIn_bind_eq_ok {w w' : Workspace} {b : β} (h : runIn w (job >>= f) = (.ok b, w')) :
    ∃ a w₁, runIn w job = (.ok a, w₁) ∧ runIn w₁ (f a) = (.ok b, w') := by
  rw [runIn_bind] at h
  rcases hrun : runIn w job with ⟨_ | a, w₁⟩
  · rw [hrun] at h
    cases h
  · rw [hrun] at h
    exact ⟨a, w₁, rfl, h⟩

theorem Yields.bind (h : Yields P job) (hf : ∀ a, P a → Yields Q (f a)) : Yields Q (job >>= f) := by
  intro w b w' hrun
  obtain ⟨a, w₁, hjob, hrest⟩ := runIn_bind_eq_ok hrun
  exact hf a (h w a w₁ hjob) w₁ b w' hrest

/-- Whatever a job gives, the next one gives what is of a kind. -/
theorem Yields.after (hf : ∀ a, Yields Q (f a)) : Yields Q (job >>= f) :=
  Yields.bind (P := fun _ => True) (fun _ _ _ _ => trivial) fun a _ => hf a

theorem yields_ofExcept {ε : Type} {wrap : ε → BuildError} {result : Except ε α} (h : ∀ a, result = .ok a → P a) :
    Yields P (ofExcept wrap result) := by
  cases result with
  | error e => exact .throw _
  | ok a => exact .pure (h a rfl)

end Yields

variable {reader : Reader} {settings : Settings} {schedule : Schedule} {program : Program} {progress : Progress}
variable {w : Workspace} {project : String} {manifest : Manifest} {program' : Program} {w' : Workspace}
  {tree : FileTree}

theorem yields_fill (program : Program) (work : Work Unit) :
    Yields (·.properties = program.properties) (fill program work) := by
  unfold fill onRegistry
  rcases Registry.run work program.registry with ⟨e | a, r⟩
  · exact .throw _
  · exact .pure rfl

theorem yields_addSource (program : Program) (name : String) (isComponent : Bool) (source : Parsed) :
    Yields (·.properties = program.properties) (addSource program name isComponent source) :=
  yields_fill (program.document name isComponent source) _

theorem yields_perform (program : Program) (task : Task) :
    Yields (·.properties = program.properties) (perform reader settings program task) := by
  cases task with
  | source name path isComponent => exact .after fun source => yields_addSource program name isComponent source
  | script name path =>
    refine .after fun text => ?_
    cases settings.verbose with
    | true => exact .after fun _ => yields_fill program _
    | false => exact yields_fill program _
  | catalog path => exact .after fun _ => .after fun _ => .after fun _ => .pure rfl

theorem yields_tick (progress : Progress) :
    Yields (·.program.properties = progress.program.properties) (progress.tick reader schedule) :=
  .after fun _ => .pure rfl

theorem yields_passFile (progress : Progress) (package directory file : String) :
    Yields (·.program.properties = progress.program.properties)
      (passFile reader settings progress package directory file) := by
  unfold passFile
  dsimp only
  split
  · exact .pure rfl
  · unfold passTask
    split
    · exact .pure rfl
    · exact (yields_perform _ _).bind fun program hprogram => .pure hprogram

def mergeManifest (properties : Json) (manifest : Manifest) : Except SettingError Json := do
  merge properties (← manifest.properties)

theorem properties_exportProgram {exported : Json}
    (h : exportProgram program exported = .ok program') : program'.properties = program.properties := by
  unfold exportProgram at h
  split at h
  · split at h <;> cases h <;> rfl
  · cases h
    rfl

theorem yields_applyManifest (program : Program) (manifest : Manifest) :
    Yields (fun program' => mergeManifest program.properties manifest = .ok program'.properties)
      (applyManifest settings program manifest) := by
  refine .after fun exported =>
    Yields.bind (yields_ofExcept fun _ => properties_exportProgram) fun exporter hexporter => ?_
  refine .after fun strict => Yields.bind (yields_ofExcept fun _ => id) fun properties hproperties => ?_
  rw [hexporter] at hproperties
  exact .after fun _ => .after fun _ => .pure hproperties

def Step.manifest? : Step → Option Manifest
  | .manifest found => some found
  | _ => none

theorem yields_takeStep (progress : Progress) (step : Step) :
    Yields (fun progress' => step.manifest?.toList.foldlM mergeManifest progress.program.properties =
      .ok progress'.program.properties) (takeStep reader settings schedule progress step) := by
  cases step with
  | manifest manifest =>
    refine (yields_applyManifest progress.program manifest).bind fun program hprogram => .pure ?_
    rw [Step.manifest?, Option.toList_some, foldlM_cons, hprogram]
    rfl
  | file package directory file =>
    refine (yields_tick progress).bind fun ticked hticked => ?_
    intro w passed w' hrun
    rw [yields_passFile ticked package directory file w passed w' hrun, hticked]
    rfl
  | stop cause => exact .throw cause

theorem yields_takeSteps (progress : Progress) (steps : List Step) :
    Yields (fun progress' => (steps.filterMap Step.manifest?).foldlM mergeManifest progress.program.properties =
      .ok progress'.program.properties) (steps.foldlM (takeStep reader settings schedule) progress) := by
  induction steps generalizing progress with
  | nil => exact .pure rfl
  | cons step steps ih =>
    rw [foldlM_cons]
    refine (yields_takeStep progress step).bind fun next hnext => ?_
    intro w last w' hrun
    have hcons : (step :: steps).filterMap Step.manifest? =
        step.manifest?.toList ++ steps.filterMap Step.manifest? := by cases step <;> rfl
    rw [hcons, foldlM_append, hnext]
    exact ih next w last w' hrun

def projectManifests (tree : FileTree) (settings : Settings) (project : String) : List Manifest :=
  (projectSteps tree settings project).filterMap Step.manifest?

/-- Every project is as it was in the beginning when the walk comes to it. -/
def Undisturbed (reader : Reader) (settings : Settings) (schedule : Schedule) (program : Program) (w : Workspace) :
    Prop :=
  ∀ front project progress w', front ++ [project] <+: settings.projects →
    (front.foldlM (passProject reader settings schedule) { program }).runIn w = (.ok progress, w') →
    stations settings.platforms w'.tree project = stations settings.platforms w.tree project

theorem properties_passProject {progress' : Progress}
    (h : (passProject reader settings schedule progress project).runIn w = (.ok progress', w')) :
    (projectManifests w.tree settings project).foldlM mergeManifest progress.program.properties =
      .ok progress'.program.properties := by
  obtain ⟨package, w₁, hpackage, h⟩ := runIn_bind_eq_ok h
  unfold projectManifests projectSteps
  cases hresult : settings.manifest.package with
  | error e =>
    rw [hresult] at hpackage
    cases hpackage
  | ok found =>
    rw [hresult] at hpackage
    cases hpackage
    obtain ⟨_, _, hget, h⟩ := runIn_bind_eq_ok h
    cases hget
    exact yields_takeSteps progress _ _ _ _ h

theorem properties_passAll {projects : List String} (hprojects : projects <+: settings.projects)
    (hundisturbed : Undisturbed reader settings schedule program w)
    (h : (projects.foldlM (passProject reader settings schedule) { program }).runIn w = (.ok progress, w')) :
    (projects.flatMap (projectManifests w.tree settings)).foldlM mergeManifest program.properties =
      .ok progress.program.properties := by
  induction projects using List.reverseRecOn generalizing progress w' with
  | nil =>
    cases h
    rfl
  | append_singleton projects project ih =>
    rw [foldlM_append] at h
    obtain ⟨before, w₁, hbefore, h⟩ := runIn_bind_eq_ok h
    have hfront := ih ((prefix_append _ _).trans hprojects) hbefore
    have hstations := hundisturbed projects project before w₁ hprojects hbefore
    have hmanifests : projectManifests w₁.tree settings project = projectManifests w.tree settings project := by
      unfold projectManifests projectSteps
      rw [hstations]
    rw [foldlM_cons] at h
    obtain ⟨after, w₂, hafter, h⟩ := runIn_bind_eq_ok h
    cases h
    rw [flatMap_append, foldlM_append, hfront, flatMap_singleton, ← hmanifests]
    exact properties_passProject hafter

theorem yields_collect (progress : Progress) (number : Nat) :
    Yields (·.program.properties = progress.program.properties) (collect reader schedule progress number) := by
  refine (yields_tick progress).bind fun ticked hticked => .after fun promises => ?_
  unfold Progress.takeIn
  rw [← hticked]
  split
  · exact .after fun source => (yields_addSource _ _ _ _).bind fun program hprogram => .pure hprogram
  · exact .pure rfl

theorem yields_collectAll (progress : Progress) (numbers : List Nat) :
    Yields (·.program.properties = progress.program.properties)
      (numbers.foldlM (collect reader schedule) progress) := by
  induction numbers generalizing progress with
  | nil => exact .pure rfl
  | cons number numbers ih =>
    rw [foldlM_cons]
    exact (yields_collect progress number).bind fun next hnext => hnext ▸ ih next

theorem properties_passProjects (hundisturbed : Undisturbed reader settings schedule program w)
    (h : ((passProjects reader settings schedule program).runIn w).1 = .ok program') :
    (settings.projects.flatMap (projectManifests w.tree settings)).foldlM mergeManifest program.properties =
      .ok program'.properties := by
  obtain ⟨walked, w₁, hwalked, h⟩ := runIn_bind_eq_ok (Prod.ext_iff.2 ⟨h, rfl⟩)
  obtain ⟨collected, w₂, hcollected, h⟩ := runIn_bind_eq_ok h
  cases h
  rw [yields_collectAll walked _ _ _ _ hcollected]
  exact properties_passAll prefix_rfl hundisturbed hwalked

theorem undisturbed_of_readText (parse : String → Except Grammar.ParseError Tree) (settings : Settings)
    (schedule : Schedule) (program : Program) (w : Workspace) :
    Undisturbed (readText parse) settings schedule program w := by
  intro front project progress w' _ hrun
  have htree : ((front.foldlM (passProject (readText parse) settings schedule) { program }).runIn w).2.tree = w.tree :=
    (Looks.runIn_eq w).2
  rw [hrun] at htree
  rw [← htree]

theorem manifest_mem_plan {naming : Naming} {stations : List Station}
    (h : Step.manifest manifest ∈ plan project naming stations) :
    ∃ station ∈ stations, Step.manifest manifest ∈ station.before := by
  induction stations generalizing naming with
  | nil => cases h
  | cons station stations ih =>
    rw [plan, Station.steps, mem_append, mem_append] at h
    rcases h with (hbefore | hfile) | hrest
    · exact ⟨station, mem_cons_self, hbefore⟩
    · split at hfile
      · simp at hfile
      · split at hfile <;> simp at hfile
    · obtain ⟨other, hother, hbefore⟩ := ih hrest
      exact ⟨other, mem_cons_of_mem _ hother, hbefore⟩

theorem exists_of_mem_projectManifests (h : manifest ∈ projectManifests tree settings project) :
    ∃ path, readManifest tree path = .ok manifest := by
  obtain ⟨step, hstep, hmanifest⟩ := mem_filterMap.1 h
  obtain rfl : step = .manifest manifest := by
    cases step with
    | manifest found => exact congrArg _ (Option.some.inj hmanifest)
    | _ => cases hmanifest
  unfold projectSteps at hstep
  split at hstep
  · obtain ⟨found, hfound, hbefore⟩ := manifest_mem_plan hstep
    obtain ⟨visit, -, rfl⟩ := mem_map.1 hfound
    unfold station at hbefore
    split at hbefore
    · split at hbefore
      · simp at hbefore
      · rename_i found package hpackage
        obtain rfl : manifest = found := by simpa using hbefore
        obtain ⟨other, hother, hrest⟩ := of_bind_eq_ok hpackage
        obtain ⟨_, _, hrest⟩ := of_bind_eq_ok hrest
        cases hrest
        exact ⟨_, hother⟩
    · simp at hbefore
  · simp at hstep

theorem expanded_of_mem_projectManifests (h : manifest ∈ projectManifests tree settings project) :
    Expanded manifest.data := by
  obtain ⟨path, hpath⟩ := exists_of_mem_projectManifests h
  obtain ⟨text, -, hread⟩ := exists_of_readManifest hpath
  exact Manifest.expanded_read hread

theorem field?_mergeManifests {key : String} {manifests : List Manifest}
    (hmanifests : ∀ manifest ∈ manifests, Expanded manifest.data)
    (hvalue : ∀ manifest ∈ manifests, ∀ v, manifest.property? key = some v → ∀ inner, v ≠ .obj inner)
    {kept : List (String × Json)} {properties : Json}
    (h : manifests.foldlM mergeManifest (.obj kept) = .ok properties) :
    ∃ merged, properties = .obj merged ∧
      Json.field? key merged = (manifests.reverse.findSome? (·.property? key)).or (Json.field? key kept) := by
  induction manifests generalizing kept with
  | nil =>
    cases h
    exact ⟨kept, rfl, rfl⟩
  | cons manifest manifests ih =>
    rw [forall_mem_cons] at hmanifests hvalue
    rw [foldlM_cons] at h
    obtain ⟨next, hnext, h⟩ := of_bind_eq_ok h
    obtain ⟨own, hown, hmerge⟩ := of_bind_eq_ok hnext
    rw [Manifest.property?_eq hown] at hvalue
    obtain ⟨between, rfl, hbetween⟩ := field?_merge (Manifest.expanded_properties hmanifests.1 hown) hvalue.1 hmerge
    obtain ⟨merged, rfl, hmerged⟩ := ih hmanifests.2 hvalue.2 h
    refine ⟨merged, rfl, ?_⟩
    rw [hmerged, hbetween, reverse_cons, findSome?_append, Option.or_assoc, ← Manifest.property?_eq hown,
      findSome?_singleton]

end QmlScript.Compile
