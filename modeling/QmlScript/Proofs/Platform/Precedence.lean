import QmlScript.Proofs.MergedProperties
import QmlScript.Proofs.Platform.Order

/-!
# Which platform sets a property

Into the program properties are merged in the order of the platforms, so a platform overrides those it needs.
For templates they are set in the reverse order of discovery, so the platform that was discovered first gives
the value.
-/

namespace QmlScript.Build

open Compile Job Relation Setting List Option

variable {manifest : Manifest} {value : Json} {name core : String} {names : List String}

/-! ## The manifest of the program -/

/-- The manifests a program can have: that of a file or an empty one, with what the command sets. -/
inductive IsGiven : Manifest → Prop where
  | empty : IsGiven {}
  | read {text : String} {manifest : Manifest} (h : Manifest.read text = .ok manifest) : IsGiven manifest
  | setProperty {manifest manifest' : Manifest} {name value : String} (h : IsGiven manifest)
    (hset : manifest.setProperty name (.str value) = .ok manifest') : IsGiven manifest'
  | setWebRoot {options : Options} {manifest manifest' : Manifest} (h : IsGiven manifest)
    (hset : setWebRoot options manifest = .ok manifest') : IsGiven manifest'

theorem expanded_str (s : String) : Expanded (.str s) := .value nofun

theorem expanded_top (h : Expanded manifest.data) {key : String} {default : Json}
    (hdefault : Expanded default) (hvalue : manifest.top key default = .ok value) : Expanded value := by
  obtain ⟨data⟩ := manifest
  cases data with
  | obj fields =>
    cases hvalue
    cases hfield : Json.field? key fields with
    | none => exact hdefault
    | some value => exact h.of_field? hfield
  | _ => cases hvalue

theorem IsGiven.expanded (h : IsGiven manifest) : Expanded manifest.data := by
  induction h with
  | empty => exact .empty
  | read h => exact Manifest.expanded_read h
  | setProperty _ hset ih =>
    obtain ⟨properties, hproperties, hset⟩ := of_bind_eq_ok hset
    obtain ⟨properties', hproperties', hset⟩ := of_bind_eq_ok hset
    obtain ⟨data, hdata, hset⟩ := of_bind_eq_ok hset
    cases hset
    have hexpanded := (Manifest.expanded_properties ih hproperties).set (expanded_str _) hproperties'
    exact ih.setPath hexpanded (by decide) hdata
  | @setWebRoot options _ _ _ hset ih =>
    obtain ⟨ofManifest, hof, hset⟩ := of_bind_eq_ok hset
    have hvalue : Expanded (if options.webRoot.getD "" = "" then ofManifest else .str (options.webRoot.getD "")) := by
      split
      · exact expanded_top ih (expanded_str "") hof
      · exact expanded_str _
    dsimp only at hset
    generalize (if options.webRoot.getD "" = "" then ofManifest else .str (options.webRoot.getD "")) = value
      at hset hvalue
    split at hset
    · obtain ⟨properties, hproperties, hset⟩ := of_bind_eq_ok hset
      obtain ⟨properties', hproperties', hset⟩ := of_bind_eq_ok hset
      obtain ⟨data, hdata, hset⟩ := of_bind_eq_ok hset
      cases hset
      have hexpanded := (Manifest.expanded_properties ih hproperties).setPath hvalue (by decide) hproperties'
      exact ih.setPath hexpanded (by decide) hdata
    · cases hset
      exact ih

section

variable {key : String} {context context' : Context}

theorem field?_updateContext {properties : Json} (h : Expanded properties)
    (hupdate : updateContext context properties = .ok context') :
    Json.field? key context' = (properties.get? key).or (Json.field? key context) := by
  unfold updateContext at hupdate
  split at hupdate
  · cases hupdate
    cases h with
    | value hne => exact absurd rfl (hne _)
    | obj keys _ _ => exact Json.field?_foldl_setField keys context
  · cases hupdate
    rfl
  · cases hupdate
    rfl
  · cases hupdate

theorem field?_addManifests {manifests : List Manifest} (hmanifests : ∀ manifest ∈ manifests, Expanded manifest.data)
    (h : addManifests context manifests = .ok context') :
    Json.field? key context' = (manifests.reverse.findSome? (·.property? key)).or (Json.field? key context) := by
  unfold addManifests at h
  induction manifests generalizing context with
  | nil =>
    cases h
    rfl
  | cons manifest manifests ih =>
    rw [forall_mem_cons] at hmanifests
    rw [foldlM_cons] at h
    obtain ⟨next, hnext, h⟩ := of_bind_eq_ok h
    obtain ⟨properties, hproperties, hupdate⟩ := of_bind_eq_ok hnext
    have hown := mapError_eq_ok_iff.1 hproperties
    rw [ih hmanifests.2 h, field?_updateContext (Manifest.expanded_properties hmanifests.1 hown)
      (mapError_eq_ok_iff.1 hupdate), reverse_cons, findSome?_append, Option.or_assoc,
      findSome?_singleton, Manifest.property?_eq hown]

end

/-- The value that the first platform which sets a property gives it. -/
def firstValue (of : String → Platform) (key : String) (names : List String) : Option Json :=
  names.findSome? fun name => (of name).manifest.property? key

/-- A property that, apart from the program, only platforms set, and not to objects: no other manifest in their
directories gives another value, and no other project sets it. -/
structure IsOfPlatforms (tree : FileTree) (settings : Settings) (of : String → Platform) (start others : List String)
    (key : String) : Prop where
  counts : ∀ name, Reached of start name → ∀ value, (of name).manifest.property? key = some value →
    ∃ manifest ∈ projectManifests tree settings (of name).directory, manifest.property? key = some value
  only : ∀ name, Reached of start name → ∀ manifest ∈ projectManifests tree settings (of name).directory,
    ∀ value, manifest.property? key = some value → (of name).manifest.property? key = some value
  others : ∀ project ∈ others, ∀ manifest ∈ projectManifests tree settings project, manifest.property? key = none
  values : ∀ name, Reached of start name → ∀ value, (of name).manifest.property? key = some value →
    ∀ fields, value ≠ .obj fields

section

variable {tree : FileTree} {settings : Settings} {of : String → Platform} {start others : List String} {key : String}

section

variable (h : IsOfPlatforms tree settings of start others key)
include h

theorem IsOfPlatforms.findSome?_directory (hname : Reached of start name) :
    (projectManifests tree settings (of name).directory).reverse.findSome? (·.property? key) =
      (of name).manifest.property? key := by
  cases hfound : (projectManifests tree settings (of name).directory).reverse.findSome? (·.property? key) with
  | some value =>
    obtain ⟨manifest, hmanifest, hvalue⟩ := exists_of_findSome?_eq_some hfound
    exact (h.only name hname manifest (mem_reverse.1 hmanifest) value hvalue).symm
  | none =>
    cases hvalue : (of name).manifest.property? key with
    | none => rfl
    | some value =>
      obtain ⟨manifest, hmanifest, hvalue⟩ := h.counts name hname value hvalue
      have hnone := findSome?_eq_none_iff.1 hfound manifest (mem_reverse.2 hmanifest)
      rw [hnone] at hvalue
      cases hvalue

theorem IsOfPlatforms.findSome?_directories (hnames : ∀ name ∈ names, Reached of start name) :
    ((names.map fun name => (of name).directory).flatMap (projectManifests tree settings)).reverse.findSome?
      (·.property? key) = firstValue of key names.reverse := by
  induction names with
  | nil => rfl
  | cons name names ih =>
    rw [forall_mem_cons] at hnames
    rw [map_cons, flatMap_cons, reverse_append, findSome?_append, ih hnames.2,
      h.findSome?_directory hnames.1, firstValue, firstValue, reverse_cons, findSome?_append,
      findSome?_singleton]

theorem IsOfPlatforms.findSome?_others {projects : List String} (hprojects : ∀ project ∈ projects, project ∈ others) :
    (projects.flatMap (projectManifests tree settings)).reverse.findSome? (·.property? key) = none := by
  refine findSome?_eq_none_iff.2 fun manifest hmanifest => ?_
  obtain ⟨project, hproject, hmanifest⟩ := mem_flatMap.1 (mem_reverse.1 hmanifest)
  exact h.others project (hprojects project hproject) manifest hmanifest

end

theorem IsOfPlatforms.findSome?_projects {sources packages : List String}
    (h : IsOfPlatforms tree settings of start (core :: sources ++ packages) key)
    (hnames : ∀ name ∈ names, Reached of start name) :
    ((core :: names.map (fun name => (of name).directory) ++ sources ++ packages).flatMap
      (projectManifests tree settings)).reverse.findSome? (·.property? key) = firstValue of key names.reverse := by
  have hcore := h.findSome?_others (forall_mem_singleton.2 (mem_append_left _ mem_cons_self))
  have hsources := h.findSome?_others fun project hproject =>
    mem_append_left packages (mem_cons_of_mem core hproject)
  have hpackages := h.findSome?_others fun project => mem_append_right (core :: sources)
  rw [cons_append, cons_append, ← singleton_append]
  simp only [flatMap_append, reverse_append, findSome?_append, hcore, hsources, hpackages,
    h.findSome?_directories hnames, none_or, or_none]

theorem IsOfPlatforms.ne_obj {sources packages : List String}
    (h : IsOfPlatforms tree settings of start (core :: sources ++ packages) key)
    (hnames : ∀ name ∈ names, Reached of start name) {project : String}
    (hproject : project ∈ core :: names.map (fun name => (of name).directory) ++ sources ++ packages)
    (hmanifest : manifest ∈ projectManifests tree settings project)
    (hvalue : manifest.property? key = some value) : ∀ fields, value ≠ .obj fields := by
  by_cases hother : project ∈ core :: sources ++ packages
  · rw [h.others project hother manifest hmanifest] at hvalue
    cases hvalue
  · have hdirectory : project ∈ names.map fun name => (of name).directory := by
      simp only [cons_append, append_assoc, mem_cons, mem_append] at hproject hother
      tauto
    obtain ⟨name, hname, rfl⟩ := mem_map.1 hdirectory
    exact h.values name (hnames name hname) value (h.only name (hnames name hname) manifest hmanifest value hvalue)

end

section

variable {of : String → Platform} {names : List String} {key : String}

theorem IsOrdered.needs (h : IsOrdered of names) {front back : List String} {need : String}
    (hway : TransGen (Needs of) name need) (hnames : names = front ++ name :: back) : need ∈ front := by
  induction hway with
  | single hneed => exact h front name back hnames _ hneed
  | tail _ hneed ih =>
    obtain ⟨front', back', rfl⟩ := append_of_mem ih
    have hbefore := h front' _ (back' ++ name :: back) (by simp [hnames]) _ hneed
    exact mem_append_left _ hbefore

theorem IsOrdered.exists_last (h : IsOrdered of names) (hnames : names.Nodup)
    (hvalue : firstValue of key names.reverse = some value) :
    ∃ last ∈ names, (of last).manifest.property? key = some value ∧
      ∀ name ∈ names, TransGen (Needs of) name last → (of name).manifest.property? key = none := by
  obtain ⟨back, last, front, heq, hlast, hback⟩ := findSome?_eq_some_iff.1 hvalue
  have hcut : names = front.reverse ++ last :: back.reverse := by
    rw [← reverse_reverse names, heq]
    simp
  have honce : last ∉ front.reverse := by
    rw [hcut, nodup_append] at hnames
    exact fun hmem => hnames.2.2 last hmem last mem_cons_self rfl
  refine ⟨last, by simp [hcut], hlast, fun name hname hway => ?_⟩
  rw [hcut, mem_append, mem_cons] at hname
  rcases hname with hfront | rfl | hbehind
  · obtain ⟨front', back', heq'⟩ := append_of_mem hfront
    have hbefore := h.needs hway (show names = front' ++ name :: (back' ++ last :: back.reverse) by simp [hcut, heq'])
    exact absurd (heq' ▸ mem_append_left _ hbefore) honce
  · exact absurd (h.needs hway hcut) honce
  · exact hback name (mem_reverse.1 hbehind)

end

section

variable {root target : String} {manifest own : Manifest} {packages start sources : List String}
  {of : String → Platform} {key : String}

theorem field?_context {tree : FileTree} (h : IsBuildable tree root target manifest packages start of)
    (hgiven : IsGiven own) {first context : Context}
    (hcontext : addManifests first (((discovered of tree target start).map fun name => (of name).manifest).reverse ++
      [own]) = .ok context) :
    Json.field? key context = (own.property? key).or
      ((firstValue of key (discovered of tree target start)).or (Json.field? key first)) := by
  have hdiscovered : ∀ m ∈ ((discovered of tree target start).map fun name => (of name).manifest).reverse,
      Expanded m.data := by
    intro m hm
    obtain ⟨name, hname, rfl⟩ := mem_map.1 (mem_reverse.1 hm)
    have hfound := h.found name (((isSearched_discovered h.found).mem_iff name).1 hname)
    obtain ⟨text, -, hread⟩ := exists_of_readManifest hfound.manifest
    exact Manifest.expanded_read hread
  rw [field?_addManifests (forall_mem_append.2 ⟨hdiscovered, forall_mem_singleton.2 hgiven.expanded⟩)
    hcontext, reverse_append, findSome?_append, reverse_singleton, findSome?_singleton,
    reverse_reverse, findSome?_map, Option.or_assoc]
  rfl

theorem field?_compiled {w : Workspace} {settings : Settings} {ordered : List String}
    (hprojects : settings.projects = core :: ordered.map (fun name => (of name).directory) ++ sources ++ packages)
    (hkey : IsOfPlatforms w.tree settings of start (core :: sources ++ packages) key)
    (hordered : ∀ name ∈ ordered, Reached of start name) (hgiven : IsGiven own)
    (hown : ∀ value, own.property? key = some value → ∀ fields, value ≠ .obj fields)
    {reader : Reader} {schedule : Schedule} {program program' : Program} (hempty : program.properties = .obj [])
    (hundisturbed : Undisturbed reader settings schedule program w)
    (hwalk : ((passProjects reader settings schedule program).runIn w).1 = .ok program')
    {compiled : List (String × Json)} (hcompiled : mergeManifest program'.properties own = .ok (.obj compiled)) :
    Json.field? key compiled = (own.property? key).or (firstValue of key ordered.reverse) := by
  have hall : (settings.projects.flatMap (projectManifests w.tree settings) ++ [own]).foldlM mergeManifest (.obj []) =
      .ok (.obj compiled) := by
    rw [foldlM_append, ← hempty, properties_passProjects hundisturbed hwalk]
    show mergeManifest program'.properties own >>= pure = _
    rw [hcompiled]
    rfl
  have hexpanded : ∀ m ∈ settings.projects.flatMap (projectManifests w.tree settings), Expanded m.data := by
    intro m hm
    obtain ⟨project, -, hm⟩ := mem_flatMap.1 hm
    exact expanded_of_mem_projectManifests hm
  have hvalues : ∀ m ∈ settings.projects.flatMap (projectManifests w.tree settings), ∀ value,
      m.property? key = some value → ∀ fields, value ≠ .obj fields := by
    intro m hm value hvalue
    obtain ⟨project, hproject, hm⟩ := mem_flatMap.1 hm
    exact hkey.ne_obj hordered (hprojects ▸ hproject) hm hvalue
  obtain ⟨merged, heq, hmerged⟩ := field?_mergeManifests
    (forall_mem_append.2 ⟨hexpanded, forall_mem_singleton.2 hgiven.expanded⟩)
    (forall_mem_append.2 ⟨hvalues, forall_mem_singleton.2 hown⟩) hall
  obtain rfl := Json.obj.inj heq
  rw [hmerged, reverse_append, findSome?_append, reverse_singleton, findSome?_singleton, hprojects,
    hkey.findSome?_projects hordered]
  exact or_none

theorem exists_firstValue (hname : name ∈ names)
    (hset : (of name).manifest.property? key ≠ none) : ∃ value, firstValue of key names = some value :=
  ne_none_iff_exists'.1 fun hnone => hset (findSome?_eq_none_iff.1 hnone name hname)

/-- What templates and programs get as the value of a property that platforms set, unless the program sets it:
templates that of the platform which was discovered first, and programs that of the last platform in order, so
that a platform overrides all that it needs. -/
theorem context_eq_compiled_iff {w w' : Workspace} (h : IsBuildable w.tree root target manifest packages start of)
    {made : Plan} (hmade : ((plan root target manifest).runIn w).1 = .ok made) (hgiven : IsGiven own)
    {settings : Settings}
    (hprojects : settings.projects = Path.join root "core" :: made.directories ++ sources ++ made.packages)
    (hkey : IsOfPlatforms w'.tree settings of start (Path.join root "core" :: sources ++ made.packages) key)
    (hown : ∀ value, own.property? key = some value → ∀ fields, value ≠ .obj fields)
    {first context : Context} (hcontext : addManifests first (made.manifests ++ [own]) = .ok context)
    {reader : Reader} {schedule : Schedule} {program program' : Program} (hempty : program.properties = .obj [])
    (hundisturbed : Undisturbed reader settings schedule program w')
    (hwalk : ((passProjects reader settings schedule program).runIn w').1 = .ok program')
    {compiled : List (String × Json)} (hcompiled : mergeManifest program'.properties own = .ok (.obj compiled)) :
    ∃ ordered : List String,
      made.directories = ordered.map (fun name => (of name).directory) ∧
      Json.field? key context = (own.property? key).or
        ((firstValue of key (discovered of w.tree target start)).or (Json.field? key first)) ∧
      Json.field? key compiled = (own.property? key).or (firstValue of key ordered.reverse) ∧
      ((∃ name, Reached of start name ∧ (of name).manifest.property? key ≠ none) →
        (Json.field? key context = Json.field? key compiled ↔ own.property? key ≠ none ∨
          firstValue of key (discovered of w.tree target start) = firstValue of key ordered.reverse)) ∧
      ∀ value, own.property? key = none → Json.field? key compiled = some value →
        ∃ last, Reached of start last ∧ (of last).manifest.property? key = some value ∧
          ∀ name, Reached of start name → TransGen (Needs of) name last →
            (of name).manifest.property? key = none := by
  obtain ⟨ordered, met, templates, hplan, hnodup, hmem, -, hbehind⟩ := h.exists_plan
  obtain rfl := Except.ok.inj ((hplan.symm.trans (Looks.runIn_eq w).1.symm).trans hmade)
  have hreached : ∀ name ∈ ordered, Reached of start name := fun name => (hmem name).1
  have htemplates : Json.field? key context = _ := field?_context h hgiven hcontext
  have hprogram := field?_compiled hprojects hkey hreached hgiven hown hempty hundisturbed hwalk hcompiled
  refine ⟨ordered, rfl, htemplates, hprogram, fun hset => ?_, fun value hnone hvalue => ?_⟩
  · obtain ⟨name, hname, hset⟩ := hset
    obtain ⟨value, hvalue⟩ := exists_firstValue (((isSearched_discovered h.found).mem_iff name).2 hname) hset
    rw [htemplates, hprogram, hvalue]
    cases own.property? key with
    | none | some other => simp
  · rw [hprogram, hnone, none_or] at hvalue
    obtain ⟨last, hlast, hgives, hover⟩ := hbehind.exists_last hnodup hvalue
    exact ⟨last, hreached last hlast, hgives, fun name hname => hover name ((hmem name).2 hname)⟩

end

/-! ## A property of two platforms -/

def televisionSettings : Settings where
  output := "build.tv"
  root := "qml"
  projects := ["qml/core", "qml/platform/js", "qml/platform/web", "qml/platform/tv", "src"]
  app := "app"
  platforms := ["tv", "js", "web"]

theorem property?_television :
    ∀ name ∈ ["js", "web", "tv"],
      (projectManifests televisionFiles televisionSettings (televisionPlatform name).directory).map
        (·.property? "mode") = [(televisionPlatform name).manifest.property? "mode"] ∧
      (televisionPlatform name).manifest.property? "mode" ∈ [none, some (.str "js"), some (.str "web")] := by
  decide +kernel

theorem isOfPlatforms_television :
    IsOfPlatforms televisionFiles televisionSettings televisionPlatform ["tv"] ["qml/core", "src"] "mode" := by
  have hmanifests : ∀ name, Reached televisionPlatform ["tv"] name → ∃ m,
      projectManifests televisionFiles televisionSettings (televisionPlatform name).directory = [m] ∧
        m.property? "mode" = (televisionPlatform name).manifest.property? "mode" := fun name hname =>
    map_eq_singleton_iff.1 (property?_television name (isBuildable_television.2 name hname)).1
  refine ⟨fun name hname value hvalue => ?_, fun name hname m hm value hvalue => ?_, by decide +kernel,
    fun name hname value hvalue => ?_⟩
  · obtain ⟨m, heq, hm⟩ := hmanifests name hname
    exact ⟨m, by simp [heq], by rw [hm, hvalue]⟩
  · obtain ⟨m', heq, hm'⟩ := hmanifests name hname
    obtain rfl : m = m' := by simpa [heq] using hm
    rw [← hm', hvalue]
  · have hmode := (property?_television name (isBuildable_television.2 name hname)).2
    rw [hvalue] at hmode
    rintro fields rfl
    simp at hmode

def plainReader : Reader := readText fun text => (Grammar.parse {} text).result

def televisionStart : Program where
  registry := { ns := programName, buildId := "" }
  documentation := none
  strict := true

/-- What planning, templates and compiling give for the platform. -/
structure TelevisionRuns (made : Plan) (context : Context) (program : Program) (compiled : List (String × Json)) :
    Prop where
  planned : ((plan "qml" "tv" {}).runIn { tree := televisionFiles }).1 = .ok made
  added : addManifests [] (made.manifests ++ [({} : Manifest)]) = .ok context
  passed : ((passProjects plainReader televisionSettings lastMoment televisionStart).runIn
    { tree := televisionFiles }).1 = .ok program
  merged : mergeManifest program.properties {} = .ok (.obj compiled)

theorem plan_television : ((plan "qml" "tv" {}).runIn { tree := televisionFiles }).1.toOption.any (fun made =>
      made.directories = ["qml/platform/js", "qml/platform/web", "qml/platform/tv"] ∧
        made.packages = [] ∧ (addManifests [] (made.manifests ++ [({} : Manifest)])).toOption.any fun context =>
          Json.field? "mode" context = some (.str "js")) = true := by
  decide +kernel

theorem compiled_television :
    ((passProjects plainReader televisionSettings lastMoment televisionStart).runIn
      { tree := televisionFiles }).1.toOption.any (fun program =>
        (mergeManifest program.properties {}).toOption.any fun compiled =>
          compiled.get? "mode" = some (.str "web")) = true := by
  decide +kernel

theorem exists_televisionRuns :
    ∃ made context program compiled, TelevisionRuns made context program compiled ∧
      made.directories = ["qml/platform/js", "qml/platform/web", "qml/platform/tv"] ∧ made.packages = [] ∧
      Json.field? "mode" context = some (.str "js") ∧ Json.field? "mode" compiled = some (.str "web") := by
  obtain ⟨made, hmade, hplan⟩ := Option.any_eq_true _ _ |>.1 plan_television
  obtain ⟨hdirectories, hpackages, hcontext⟩ := of_decide_eq_true hplan
  obtain ⟨context, hadded, hmode⟩ := Option.any_eq_true _ _ |>.1 hcontext
  obtain ⟨program, hprogram, hmerged⟩ := Option.any_eq_true _ _ |>.1 compiled_television
  obtain ⟨properties, hproperties, hweb⟩ := Option.any_eq_true _ _ |>.1 hmerged
  have hvalue := of_decide_eq_true hweb
  cases properties with
  | obj compiled =>
    have hruns : TelevisionRuns made context program compiled := ⟨eq_ok_of_toOption hmade, eq_ok_of_toOption hadded,
      eq_ok_of_toOption hprogram, eq_ok_of_toOption hproperties⟩
    exact ⟨made, context, program, compiled, hruns, hdirectories, hpackages, of_decide_eq_true hmode, hvalue⟩
  | _ => cases hvalue

/-- The value of `web`, which nothing that sets the property needs, is that of the program. -/
theorem context_eq_compiled_iff_television :
    ∃ made context program compiled, TelevisionRuns made context program compiled ∧
      made.directories = ["qml/platform/js", "qml/platform/web", "qml/platform/tv"] ∧
      firstValue televisionPlatform "mode" (discovered televisionPlatform televisionFiles "tv" ["tv"]) =
        some (.str "js") ∧
      Json.field? "mode" compiled = some (.str "web") ∧
      ∃ last, (televisionPlatform last).manifest.property? "mode" = some (.str "web") ∧
        ∀ name, Reached televisionPlatform ["tv"] name → TransGen (Needs televisionPlatform) name last →
          (televisionPlatform name).manifest.property? "mode" = none := by
  obtain ⟨made, context, program, compiled, hruns, hdirectories, hpackages, hjs, hweb⟩ := exists_televisionRuns
  have hprojects : televisionSettings.projects =
      Path.join "qml" "core" :: made.directories ++ ["src"] ++ made.packages := by
    rw [hdirectories, hpackages]
    decide +kernel
  have hbuildable : IsBuildable ({ tree := televisionFiles } : Workspace).tree "qml" "tv" {} televisionPackages ["tv"]
    televisionPlatform := isBuildable_television.1
  have hkey : IsOfPlatforms ({ tree := televisionFiles } : Workspace).tree televisionSettings televisionPlatform ["tv"]
      (Path.join "qml" "core" :: ["src"] ++ made.packages) "mode" := by
    rw [hpackages, show Path.join "qml" "core" = "qml/core" by decide +kernel]
    exact isOfPlatforms_television
  have hnone : ({} : Manifest).property? "mode" = none := rfl
  obtain ⟨ordered, -, hfirst, -, -, hlast⟩ :=
    context_eq_compiled_iff hbuildable hruns.planned .empty hprojects hkey nofun
      hruns.added rfl (undisturbed_of_readText _ _ _ _ _) hruns.passed hruns.merged
  obtain ⟨last, -, hlast⟩ := hlast _ hnone hweb
  rw [hjs, hnone, none_or] at hfirst
  exact ⟨made, context, program, compiled, hruns, hdirectories, (hfirst.trans or_none).symm, hweb, last, hlast⟩

/-- Templates get a value that the program overrides: the platform `web` needs `js`, and both set the property. -/
theorem context_ne_compiled_television :
    IsBuildable televisionFiles "qml" "tv" {} televisionPackages ["tv"] televisionPlatform ∧
    Reached televisionPlatform ["tv"] "web" ∧ Needs televisionPlatform "web" "js" ∧
    ∃ made context program compiled, TelevisionRuns made context program compiled ∧
      Json.field? "mode" context = some (.str "js") ∧ Json.field? "mode" compiled = some (.str "web") := by
  obtain ⟨made, context, program, compiled, hruns, -, -, hjs, hweb⟩ := exists_televisionRuns
  have hneeds : "web" ∈ (televisionPlatform "tv").needs ∧ "js" ∈ (televisionPlatform "web").needs := by decide +kernel
  exact ⟨isBuildable_television.1, ⟨"tv", mem_singleton.2 rfl, .single hneeds.1⟩, hneeds.2, made, context, program,
    compiled, hruns, hjs, hweb⟩

end QmlScript.Build
