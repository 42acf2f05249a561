import QmlScript.Proofs.Invariants

/-!
# Packages are declared before they are used

A program begins with the objects of its packages and the variables that stand for them, written from a tree
of the packages. Every component that gets a section has its package in the tree, and different packages have
different variables.
-/

namespace QmlScript.Registry

open List Package

variable {name text : String} {path : List String} {r r' : Registry}

/-! ## Paths in trees of packages -/

mutual

/-- The paths to all packages of a tree, outer ones first. -/
def PackageTree.paths : PackageTree → List (List String)
  | .node packages => PackageTree.pathsOf packages

def PackageTree.pathsOf : List (String × PackageTree) → List (List String)
  | [] => []
  | (name, tree) :: packages =>
    [name] :: (PackageTree.paths tree).map (name :: ·) ++ PackageTree.pathsOf packages

end

namespace PackageTree

theorem mem_pathsOf_cons {tree : PackageTree} {packages : List (String × PackageTree)} :
    path ∈ pathsOf ((name, tree) :: packages) ↔
      path = [name] ∨ (∃ inner ∈ tree.paths, path = name :: inner) ∨ path ∈ pathsOf packages := by
  simp only [pathsOf, cons_append, mem_cons, mem_append, mem_map]
  simp only [eq_comm]

theorem mem_paths_add (hne : path ≠ []) (tree : PackageTree) : path ∈ (tree.add path).paths := by
  induction path generalizing tree with
  | nil => exact absurd rfl hne
  | cons name path ih =>
    obtain ⟨packages⟩ := tree
    rw [add, paths]
    have hinside : ∀ inside : PackageTree, ∀ packages,
        name :: path ∈ pathsOf ((name, inside.add path) :: packages) := by
      intro inside packages
      rw [mem_pathsOf_cons]
      rcases eq_or_ne path [] with rfl | hpath
      · exact .inl rfl
      · exact .inr (.inl ⟨path, ih hpath inside, rfl⟩)
    induction packages with
    | nil =>
      rw [addTo]
      exact hinside _ _
    | cons package packages ihp =>
      obtain ⟨n, inside⟩ := package
      rw [addTo]
      split
      · rename_i heq
        rw [heq]
        exact hinside inside packages
      · exact mem_pathsOf_cons.mpr (.inr (.inr ihp))

theorem mem_paths_add_of_mem {tree : PackageTree} (new : List String)
    (h : path ∈ tree.paths) : path ∈ (tree.add new).paths := by
  induction new generalizing path tree with
  | nil => rwa [add]
  | cons name new ih =>
    obtain ⟨packages⟩ := tree
    rw [paths] at h
    rw [add, paths]
    induction packages with
    | nil => simp [pathsOf] at h
    | cons package packages ihp =>
      obtain ⟨n, inside⟩ := package
      rw [mem_pathsOf_cons] at h
      rw [addTo]
      split
      · refine mem_pathsOf_cons.mpr (h.imp_right (.imp_left ?_))
        rintro ⟨inner, hinner, rfl⟩
        exact ⟨inner, ih hinner, rfl⟩
      · exact mem_pathsOf_cons.mpr (h.imp_right (.imp_right ihp))

theorem mem_paths_ofPackages {packages : List String} {package : String} (h : package ∈ packages) :
    splitText '.' package ∈ (ofPackages packages).paths := by
  have hkept : ∀ (others : List String) (tree : PackageTree), splitText '.' package ∈ tree.paths →
      splitText '.' package ∈
        (others.foldl (fun tree package => tree.add (splitText '.' package)) tree).paths := by
    intro others
    induction others with
    | nil => exact fun _ htree => htree
    | cons other others ih => exact fun tree htree => ih _ (mem_paths_add_of_mem _ htree)
  obtain ⟨front, back, rfl⟩ := append_of_mem h
  rw [ofPackages, foldl_append, foldl_cons]
  exact hkept back _ (mem_paths_add (splitText_ne_nil '.' package) _)

mutual

theorem paths_outer_first (tree : PackageTree) {path : List String} (h : path ∈ tree.paths) :
    ∃ front back, tree.paths = front ++ path :: back ∧
      ∀ outer inner, outer ≠ [] → inner ≠ [] → path = outer ++ inner → outer ∈ front := by
  obtain ⟨packages⟩ := tree
  rw [paths] at h ⊢
  exact pathsOf_outer_first packages h

theorem pathsOf_outer_first (packages : List (String × PackageTree)) {path : List String}
    (h : path ∈ pathsOf packages) :
    ∃ front back, pathsOf packages = front ++ path :: back ∧
      ∀ outer inner, outer ≠ [] → inner ≠ [] → path = outer ++ inner → outer ∈ front := by
  match packages with
  | [] => simp [pathsOf] at h
  | (name, tree) :: packages =>
    rw [pathsOf]
    rcases mem_pathsOf_cons.mp h with rfl | ⟨path, hpath, rfl⟩ | h
    · refine ⟨[], _, rfl, fun outer inner houter hinner heq => ?_⟩
      have hlength := congrArg List.length heq
      have := length_pos_of_ne_nil houter
      have := length_pos_of_ne_nil hinner
      rw [length_singleton, length_append] at hlength
      omega
    · obtain ⟨front, back, hpaths, hfirst⟩ := paths_outer_first tree hpath
      refine ⟨[name] :: front.map (name :: ·), back.map (name :: ·) ++ pathsOf packages, ?_, ?_⟩
      · simp [hpaths]
      · intro outer inner houter hinner heq
        obtain ⟨n, outer, rfl⟩ := exists_cons_of_ne_nil houter
        obtain ⟨rfl, hinside⟩ := List.cons.inj heq
        rcases eq_or_ne outer [] with rfl | hne
        · exact mem_cons_self
        · exact mem_cons_of_mem _ (mem_map_of_mem (hfirst outer inner hne hinner hinside))
    · obtain ⟨front, back, hpaths, hfirst⟩ := pathsOf_outer_first packages h
      refine ⟨[name] :: tree.paths.map (name :: ·) ++ front, back, by simp [hpaths], ?_⟩
      exact fun outer inner houter hinner heq =>
        mem_append_right _ (hfirst outer inner houter hinner heq)

end

end PackageTree

/-! ## The objects of packages -/

/-- The lines that make the object of a package and its variable. -/
def objectLines (object : String) : List String :=
  ["if (!" ++ object ++ ") /** @const */ " ++ object ++ " = \x7b\x7d",
    "var " ++ mangle object ++ " = " ++ object]

def objectAt (object : String) (path : List String) : String :=
  path.foldl (fun object name => escapeSegments (object ++ "." ++ name)) object

mutual

theorem PackageTree.lines_ok {object : String} (tree : PackageTree) {lines : List String}
    (h : tree.lines object = .ok lines) :
    lines = tree.paths.flatMap fun path => objectLines (objectAt object path) := by
  obtain ⟨packages⟩ := tree
  rw [PackageTree.lines] at h
  rw [PackageTree.paths]
  exact PackageTree.linesOf_ok packages h

theorem PackageTree.linesOf_ok {object : String} (packages : List (String × PackageTree))
    {lines : List String} (h : PackageTree.linesOf object packages = .ok lines) :
    lines = (PackageTree.pathsOf packages).flatMap fun path => objectLines (objectAt object path) := by
  match packages with
  | [] =>
    rw [PackageTree.linesOf] at h
    rw [PackageTree.pathsOf]
    exact (Except.ok.inj h).symm
  | (name, tree) :: packages =>
    rw [PackageTree.linesOf] at h
    split at h
    · cases h
    · obtain ⟨inside, hinside, h⟩ := of_bind_eq_ok h
      obtain ⟨others, hothers, h⟩ := of_bind_eq_ok h
      obtain rfl := Except.ok.inj h
      rw [PackageTree.lines_ok tree hinside, PackageTree.linesOf_ok packages hothers, PackageTree.pathsOf]
      simp [flatMap_map, objectAt, objectLines]

end

theorem objectAt_eq {object : String} (hobject : escapeSegments object = object)
    (hpath : ∀ name ∈ path, '.' ∉ name.toList) :
    objectAt object path = ".".intercalate (object :: path.map escapeId) := by
  induction path generalizing object with
  | nil => rw [map_nil, String.intercalate_singleton]; rfl
  | cons name path ih =>
    have hname : escapeSegments (object ++ "." ++ name) = object ++ "." ++ escapeId name := by
      rw [escapeSegments_append _ (hpath name mem_cons_self), hobject]
    have hnext : escapeSegments (object ++ "." ++ escapeId name) = object ++ "." ++ escapeId name := by
      rw [← hname, escapeSegments_escapeSegments]
    have hrest := ih hnext fun n hn => hpath n (mem_cons_of_mem _ hn)
    rw [objectAt, foldl_cons, hname, ← objectAt, hrest]
    apply String.toList_inj.mp
    cases path with
    | nil => simp
    | cons next path => simp [String.toList_intercalate]

theorem objectAt_globals (hne : path ≠ []) (hpath : ∀ name ∈ path, '.' ∉ name.toList) :
    objectAt "_globals" path = "_globals." ++ ".".intercalate (path.map escapeId) := by
  rw [objectAt_eq (by decide +kernel) hpath]
  obtain ⟨name, path, rfl⟩ := exists_cons_of_ne_nil hne
  apply String.toList_inj.mp
  simp [String.toList_intercalate]

/-- A package is declared: its object is made behind those around it, and its variable stands for the object. -/
def Declared (objects : List String) (package : String) : Prop :=
  ∃ front back, objects = front ++ ("_globals." ++ escapeSegments package) :: back ∧
    mangle ("_globals." ++ escapeSegments package) = mangle package ∧
    ∀ outer inner, escapeSegments package = outer ++ "." ++ inner → "_globals." ++ outer ∈ front

theorem declared_of_mem {packages : NameSet} {package : String} (h : package ∈ packages)
    (hglobals : ¬ Package.InGlobals (escapeSegments package)) :
    Declared ((PackageTree.ofPackages packages).paths.map (objectAt "_globals")) package := by
  have hmem := PackageTree.mem_paths_ofPackages h
  obtain ⟨front, back, hpaths, hfirst⟩ := PackageTree.paths_outer_first _ hmem
  have hdots : ∀ name ∈ splitText '.' package, '.' ∉ name.toList := fun _ => not_mem_of_mem_splitText
  refine ⟨front.map (objectAt "_globals"), back.map (objectAt "_globals"), ?_,
    mangle_globals_escapeSegments hglobals, fun outer inner heq => ?_⟩
  · rw [hpaths, map_append, map_cons, objectAt_globals (splitText_ne_nil _ _) hdots, escapeSegments]
  · -- the segments of the outer package are the first ones
    have hsegments : (splitText '.' package).map escapeId = splitText '.' outer ++ splitText '.' inner := by
      have hlist : (outer ++ "." ++ inner).toList = outer.toList ++ '.' :: inner.toList := by simp
      rw [← splitText_escapeSegments, heq, splitText, hlist, Text.splitOn_append, map_append]
      rfl
    obtain ⟨path, rest, hsplit, hpath, hrest⟩ := map_eq_append_iff.mp hsegments
    have hpathne : path ≠ [] := by
      rintro rfl
      exact splitText_ne_nil '.' outer hpath.symm
    have hrestne : rest ≠ [] := by
      rintro rfl
      exact splitText_ne_nil '.' inner hrest.symm
    have houter : objectAt "_globals" path = "_globals." ++ outer := by
      rw [objectAt_globals hpathne fun name hname => hdots name (hsplit ▸ mem_append_left _ hname), hpath]
      exact congrArg _ (intercalate_splitText '.' outer)
    rw [← houter]
    exact mem_map_of_mem (hfirst path rest hpathne hrestne hsplit)

/-! ## The packages of sections -/

def PackageUsed (name : String) (r : Registry) : Prop :=
  ∃ c, r.components.get? name = some c ∧ c.package ∈ r.usedPackages

theorem steady_packageUsed (name : String) : Steady (PackageUsed name) where
  use h _ := h
  usePackage h package := by
    obtain ⟨c, hc, hused⟩ := h
    exact ⟨c, hc, (NameSet.mem_add _ _ _).mpr (.inr hused)⟩
  unmarked h := h
  replace {r} h {other c d} hc hname ids := by
    obtain ⟨c', hc', hused⟩ := h
    by_cases heq : other = name
    · subst heq
      obtain rfl := Option.some.inj (hc.symm.trans hc')
      refine ⟨d, Table.get?_insert_self _ _ _, ?_⟩
      rwa [Component.package, hname]
    · exact ⟨c', (Table.get?_insert_of_ne _ _ heq).trans hc', hused⟩

theorem sectionText_packageUsed {c : Component} (hc : r.components.get? name = some c)
    (h : run (sectionText c) r = (.ok text, r')) :
    PackageUsed name r' := by
  unfold sectionText at h
  rw [run_bind, run_modify] at h
  dsimp only at h
  have hrest : Keeps (PackageUsed name) (do
      let constructor ← constructorText c
      let prototype ← prototypeText c 1
      return "\n\n//=====[component " ++ c.name ++ "]=====================\n\n" ++ constructor ++ prototype) :=
    .bind ((steady_packageUsed name).resolves _) fun _ =>
      .bind ((steady_packageUsed name).resolves _) fun _ => .pure _
  have hused := hrest (r.usePackage c.package) ⟨c, hc, (NameSet.mem_add _ _ _).mpr (.inl rfl)⟩
  rwa [usePackage, h] at hused

theorem generateSection_packageUsed {sections sections' : Sections}
    (hr : ∀ other ∈ sections.code.keys, PackageUsed other r)
    (h : run (generateSection sections name) r = (.ok sections', r')) :
    ∀ other ∈ sections'.code.keys, PackageUsed other r' := by
  have hkept : ∀ other, PackageUsed other r → PackageUsed other r' := by
    intro other hother
    have hend := (steady_packageUsed other).resolves (generateSection sections name) r hother
    rwa [h] at hend
  unfold generateSection at h
  obtain ⟨c, s, hc, h₁⟩ := run_bind_ok h
  obtain ⟨hget, rfl⟩ := run_component_ok hc
  obtain ⟨base, r₁, hbase, h₂⟩ := run_bind_ok h₁
  dsimp only at h₂
  split at h₂
  · obtain rfl := Except.ok.inj (Prod.mk.inj h₂).1
    exact fun other hother => hkept other (hr other hother)
  · obtain ⟨code, r₂, hcode, h₃⟩ := run_bind_ok h₂
    obtain ⟨hsections, rfl⟩ := Prod.mk.inj h₃
    obtain rfl := Except.ok.inj hsections
    intro other hother
    rcases (Table.mem_keys_insert _ _ _ _).mp hother with rfl | hother
    · refine sectionText_packageUsed ?_ hcode
      rcases run_find_ok hbase with ⟨-, rfl⟩ | ⟨-, rfl⟩ <;> exact hget
    · exact hkept other (hr other hother)

theorem generateQueue_packageUsed (bound : Nat) {queue : List String} {sections sections' : Sections}
    (hr : ∀ name ∈ sections.code.keys, PackageUsed name r)
    (h : run (generateQueue bound queue sections) r = (.ok sections', r')) :
    ∀ name ∈ sections'.code.keys, PackageUsed name r' := by
  induction bound generalizing queue sections r with
  | zero =>
    obtain ⟨hsections, rfl⟩ := Prod.mk.inj h
    obtain rfl := Except.ok.inj hsections
    exact hr
  | succ bound ih =>
    rw [run_generateQueue_succ] at h
    split at h
    · obtain ⟨hsections, rfl⟩ := Prod.mk.inj h
      obtain rfl := Except.ok.inj hsections
      exact hr
    · have hunmarked : ∀ name ∈ sections.code.keys, PackageUsed name r.unmarked := hr
      cases hw : waiting queue sections r with
      | nil =>
        rw [hw] at h
        exact ih hunmarked h
      | cons name queue' =>
        rw [hw] at h
        obtain ⟨next, s, hsection, hrest⟩ := run_bind_ok h
        exact ih (generateSection_packageUsed hunmarked hsection) hrest

theorem run_findMangled_ok {current reference : String} (h : run (findMangled current reference) r = (.ok text, r')) :
    ∃ full, text = mangle (ofName full) ++ "." ++ (splitName full).2 ∧ (full = root ∨ full ∈ r'.usedComponents) := by
  rw [findMangled, run_find] at h
  split at h
  · obtain ⟨htext, -⟩ := Prod.mk.inj h
    exact ⟨root, (Except.ok.inj htext).symm.trans (by decide +kernel), .inl rfl⟩
  · split at h
    · cases h
    · rename_i package _
      obtain ⟨htext, rfl⟩ := Prod.mk.inj h
      refine ⟨package ++ "." ++ (splitName reference).2, ?_, .inr ?_⟩
      · rw [← Except.ok.inj htext, ofName, splitName_append _ (not_mem_splitName reference)]
        rfl
      · exact (NameSet.mem_add _ _ _).mpr (.inl rfl)

def packageObjects (r : Registry) : List String :=
  (PackageTree.ofPackages r.usedPackages).paths.map (objectAt "_globals")

theorem Resolving.mem_used {α : Type} {w : Work α} (hw : Resolving w) (h : name ∈ r.usedComponents) :
    name ∈ (run w r).2.usedComponents :=
  hw.keeps (I := fun r => name ∈ r.usedComponents) (fun hr _ => (NameSet.mem_add _ _ _).mpr (.inr hr))
    (fun hr _ => hr) r h

theorem run_prologue_ok (h : run prologue r = (.ok text, r')) :
    ∃ rest, text = "\n".intercalate ((packageObjects r').flatMap objectLines ++ rest) := by
  unfold prologue at h
  rw [run_bind, run_modify] at h
  dsimp only at h
  rw [run_bind, run_get] at h
  obtain ⟨lines, s, hcheck, h₁⟩ := run_bind_ok h
  rw [run_check] at hcheck
  obtain ⟨hok, rfl⟩ := Prod.mk.inj hcheck
  obtain ⟨htext, rfl⟩ := Prod.mk.inj h₁
  have hlines := PackageTree.lines_ok _ hok
  rw [packageObjects, flatMap_map, ← hlines]
  exact ⟨_, (Except.ok.inj htext).symm⟩

theorem declared_of_packageUsed (hr : Sound r) (hglobals : ∀ package ∈ r.packages.keys, ¬ Package.InGlobals package)
    (h : PackageUsed name r) : Declared (packageObjects r) (ofName name) := by
  obtain ⟨c, hc, hused⟩ := h
  rw [Component.package, hr.named name c hc] at hused
  have hpackage := hr.declared name ((Table.mem_keys_iff _ _).mpr ⟨c, hc⟩)
  refine declared_of_mem hused ?_
  rw [hr.escaped _ hpackage]
  exact hglobals _ hpackage

theorem generate_ok {start : Registry} (h : (run generate start).1 = .ok text) :
    ∃ P Q R sections packages, run prepareProgram start = (.ok (), P) ∧
      run generatePrepared P = (.ok sections, Q) ∧ run prologue Q = (.ok packages, R) ∧
      Script.replaceArgs (programText R.ns packages sections (importTexts R)) = .ok text := by
  have hrun := run_eq_of_ok h
  rw [generate_eq] at hrun
  obtain ⟨_, P, hprep, h₁⟩ := run_bind_ok hrun
  obtain ⟨sections, Q, hsections, h₂⟩ := run_bind_ok h₁
  obtain ⟨packages, R, hprologue, h₃⟩ := run_bind_ok h₂
  rw [run_bind, run_get] at h₃
  dsimp only at h₃
  rw [run_check] at h₃
  exact ⟨P, Q, R, sections, packages, hprep, hsections, hprologue, (Prod.mk.inj h₃).1⟩

theorem Steady.over_steps {I : Registry → Prop} (hI : Steady I) {start P Q R : Registry}
    {sections packages : String} (hprep : run Registry.prepareProgram start = (.ok (), P))
    (hsections : run Registry.generatePrepared P = (.ok sections, Q))
    (hprologue : run Registry.prologue Q = (.ok packages, R)) (hstart : I start) : I R := by
  have hP := hI.prepareProgram start hstart
  rw [hprep] at hP
  have hQ := hI.generatePrepared P hP
  rw [hsections] at hQ
  have hR := hI.prologue Q hQ
  rwa [hprologue] at hR

/-- Of a program over a registry with no package inside `_globals`, the packages of all components with
sections, and of all that are resolved for a section, are declared in front of the sections. A name with the
variable of a package is that of a component which is resolved. Different packages have different variables. -/
theorem generate_declares_packages {start : Registry} {text : String} (hstart : Reachable start)
    (hglobals : ∀ package ∈ start.packages.keys, ¬ Package.InGlobals package)
    (h : (run generate start).1 = .ok text) :
    (∃ P order objects rest scripts, run prepareProgram start = (.ok (), P) ∧ emitted P = .ok order ∧
      Script.replaceArgs (programText start.ns ("\n".intercalate (objects.flatMap objectLines ++ rest))
        (String.join (order.map (sectionOf P))) scripts) = .ok text ∧
      ∀ name ∈ order, ∀ other, other = name ∨ other = root ∨ other ∈ resolvedBy P name →
        Declared objects (ofName other)) ∧
    (∀ current reference mangled r r', run (findMangled current reference) r = (.ok mangled, r') →
      ∃ full, mangled = mangle (ofName full) ++ "." ++ (splitName full).2 ∧
        (full = root ∨ ∀ rest : Work String, Resolving rest → full ∈ (run rest r').2.usedComponents)) ∧
    ∀ package package', escapeSegments package = package →
      escapeSegments package' = package' → ¬ Package.InGlobals package →
      ¬ Package.InGlobals package' → package ≠ package' → mangle package ≠ mangle package' := by
  refine ⟨?_, fun _ _ _ _ _ hfind => ?_, fun package package' hp hp' hg hg' hne heq => ?_⟩
  · obtain ⟨P, Q, R, sectionsText, packages, hprep, hsections, hprologue, hprogram⟩ := generate_ok h
    obtain ⟨sections, order, hqueue, hemitted, hprogress, horder, rfl⟩ := generatePrepared_ok hsections
    have hcontains := hprogress.contains hprep horder
    obtain ⟨rest, rfl⟩ := run_prologue_ok hprologue
    have hns : R.ns = start.ns := (steady_ns start.ns).over_steps hprep hsections hprologue rfl
    have hpackages : R.packages = start.packages :=
      (steady_packages start.packages).over_steps hprep hsections hprologue rfl
    have hsound : Sound R := Sound.steady.over_steps hprep hsections hprologue hstart.sound
    have hdeclared : ∀ name ∈ order, Declared (packageObjects R) (ofName name) := by
      intro name hname
      have hkey : name ∈ sections.code.keys :=
        hprogress.keys ▸ (sectionOrder_placed horder).1.known name hname
      have hused := generateQueue_packageUsed _ (by simp [Table.keys]) hqueue name hkey
      have hkept := (steady_packageUsed name).prologue Q hused
      rw [hprologue] at hkept
      exact declared_of_packageUsed hsound (hpackages ▸ hglobals) hkept
    have hroot : Declared (packageObjects R) (ofName root) := hdeclared context hcontains.context_mem
    refine ⟨P, order, packageObjects R, rest, importTexts R, hprep, hemitted, ?_, ?_⟩
    · rw [← hns, ← hcontains.text_eq]
      exact hprogram
    · rintro name hname other (rfl | rfl | hother)
      · exact hdeclared other hname
      · exact hroot
      · rcases hcontains.resolved name hname other hother with rfl | hother
        · exact hroot
        · exact hdeclared other hother
  · obtain ⟨full, hmangled, hfull⟩ := run_findMangled_ok hfind
    exact ⟨full, hmangled, hfull.imp_right fun hmem _ hrest => hrest.mem_used hmem⟩
  · have hescaped := escapeSegments_eq_of_mangle_eq (hp.symm ▸ hg) (hp'.symm ▸ hg') heq
    rw [hp, hp'] at hescaped
    exact hne hescaped

def nestedPackages : List Call :=
  [declare "core.Context" "CoreObject", start "ui.forms.main" "CoreObject"]

theorem packagesFree_nested : PackagesFree ["core", "ui.forms"] := by
  have hcore : splitText '.' "core" = ["core"] := by decide
  have hforms : splitText '.' "ui.forms" = ["ui", "forms"] := by decide +kernel
  have hcorefull : escapeSegments "_globals.core" = "_globals.core" := by decide +kernel
  have huifull : escapeSegments "_globals.ui" = "_globals.ui" := by decide +kernel
  have hformsfull : escapeSegments "_globals.ui.forms" = "_globals.ui.forms" := by decide +kernel
  simp [PackagesFree, PackageTree.ofPackages, PackageTree.add, PackageTree.addTo, PackageTree.lines,
    PackageTree.linesOf, hcore, hforms, hcorefull, huifull, hformsfull, bind, Except.bind, pure, Except.pure]
  decide +kernel

set_option maxRecDepth 100000 in
theorem generate_declares_forms :
    ∃ text objects rest sections scripts,
      (run generate (after nestedPackages (fresh "qml" "1"))).1 = .ok text ∧
      Script.replaceArgs (programText "qml" ("\n".intercalate (objects.flatMap objectLines ++ rest))
        sections scripts) = .ok text ∧ Declared objects "ui.forms" := by
  have hused : (run generateComponents (after nestedPackages (fresh "qml" "1"))).2.usedPackages =
      ["core", "ui.forms"] := by decide +kernel
  have hplain : isPlainProgram (after nestedPackages (fresh "qml" "1"))
      ["core.Context", "ui.forms.UiMain"] = true := by decide +kernel
  obtain ⟨hemitted, text, htext⟩ := generate_of_isPlainProgram hplain (hused ▸ packagesFree_nested)
  obtain ⟨⟨P, order, objects, rest, scripts, hprep, horder, hprogram, hdeclared⟩, -⟩ :=
    generate_declares_packages ((Reachable.fresh "qml" "1").after nestedPackages) (by decide +kernel) htext
  rw [hprep] at hemitted
  obtain rfl := Except.ok.inj (hemitted.symm.trans horder)
  exact ⟨text, objects, rest, _, scripts, htext, hprogram,
    hdeclared "ui.forms.UiMain" (by simp) "ui.forms.UiMain" (.inl rfl)⟩

end QmlScript.Registry
