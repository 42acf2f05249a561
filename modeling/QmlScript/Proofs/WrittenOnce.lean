import QmlScript.Documentation
import QmlScript.Proofs.Table

/-!
# Documentation is written once

Each page that is written is noted once more, as a page that declares nothing, and no package with such a page can be
written. As long as no page is noted in a package that comes later, documentation is written as if it was only read.
It is never written again.
-/

namespace QmlScript

open List

/-- Work that succeeds has succeeded at its first step and behind it. -/
theorem FileWork.ok_of_bind {ε α β : Type} {work : FileWork ε α} {f : α → FileWork ε β} {b : β} {tree tree' : FileTree}
    (h : (work >>= f).run tree = (.ok b, tree')) :
    ∃ a tree'', work.run tree = (.ok a, tree'') ∧ (f a).run tree'' = (.ok b, tree') := by
  change (work.run >>= ExceptT.bindCont f).run tree = _ at h
  rw [StateT.run_bind] at h
  rcases hwork : work.run.run tree with ⟨e | a, tree''⟩
  · rw [hwork] at h
    cases h
  · rw [hwork] at h
    exact ⟨a, tree'', hwork, h⟩

namespace Documentation

def documented (root : String) (components : List (String × Tree)) : Documentation :=
  components.foldl (fun d component => d.addTree component.1 component.2) { root }

def page? (d : Documentation) (package name : String) : Option Page :=
  (d.packages.get? package).bind (·.get? name)

def pagesOf (d : Documentation) (package : String) : List (String × Page) :=
  ((d.packages.get? package).getD {}).entries

def order (d : Documentation) : List String := orderedSet textLt d.packages.keys

def readPage (paths : PathMap) (d : Documentation) (package : String) (entry : String × Page) :
    FileWork WriteError Unit := do
  let file := Path.join (Path.join d.pageRoot package) (entry.1 ++ ".json")
  FileWork.write file ""
  match entry.2.text paths with
  | .ok text => FileWork.write file text
  | .error e => throw e

def readPackage (paths : PathMap) (d : Documentation) (package : String) : FileWork WriteError Unit := do
  FileWork.makeDirectory (Path.join d.pageRoot package)
  forM (d.pagesOf package) (d.readPage paths package)
  FileWork.write (Path.join d.pageRoot (package ++ ".json"))
    (fileText (.obj [(package, pageList package (d.pagesOf package))]))

/-- What the table of contents says about a package. -/
def listing (d : Documentation) (package : String) : String × Json :=
  (package, .obj [("file", .str (package ++ ".json")), ("content", pageList package (d.pagesOf package))])

/-- Write the pages, lists and table of contents, and note nothing. -/
def read (paths : PathMap) (d : Documentation) : FileWork WriteError Unit := do
  FileWork.makeDirectories d.pageRoot
  FileWork.write (Path.join d.root ".nocompile") ""
  forM d.order (d.readPackage paths)
  FileWork.write (Path.join d.pageRoot "mkdocs.json") (fileText (contents (d.order.map d.listing)))

def note (d : Documentation) (entries : List (String × Page)) : Documentation :=
  entries.foldl (fun d entry => d.add entry.1 .page) d

/-- What writing leaves: all pages are noted once more. -/
def noted (d : Documentation) : Documentation := d.note (d.order.flatMap d.pagesOf)

/-- No page is noted in a package that comes later. -/
def Apart (d : Documentation) (packages : List String) : Prop :=
  packages.Pairwise fun package later => ∀ entry ∈ d.pagesOf package, (splitName entry.1).1 ≠ later

variable {paths : PathMap} {package name : String} {packages : List String} {entries : List (String × Page)}
  {d d' start : Documentation} {tree tree' : FileTree} {page : Page} {r : List (String × Json) × Documentation}

theorem note_cons (d : Documentation) (entry : String × Page) (entries : List (String × Page)) :
    d.note (entry :: entries) = (d.add entry.1 .page).note entries := rfl

theorem root_note (d : Documentation) (entries : List (String × Page)) : (d.note entries).root = d.root := by
  induction entries generalizing d with
  | nil => rfl
  | cons entry entries ih => exact ih _

theorem pagesOf_note (h : ∀ entry ∈ entries, (splitName entry.1).1 ≠ package) :
    (d.note entries).pagesOf package = d.pagesOf package := by
  induction entries generalizing d with
  | nil => rfl
  | cons entry entries ih =>
    have hadd : (d.add entry.1 .page).pagesOf package = d.pagesOf package := by
      unfold pagesOf
      rw [add, Table.get?_insert_of_ne _ _ (h entry mem_cons_self)]
    rw [note_cons, ih fun other hother => h other (mem_cons_of_mem _ hother), hadd]

theorem writePages_eq (paths : PathMap) (package : String) (d : Documentation) (entries : List (String × Page)) :
    writePages paths package d entries =
      (forM entries (d.readPage paths package) >>= fun _ => pure (d.note entries)) := by
  induction entries generalizing d with
  | nil => rfl
  | cons entry entries ih =>
    have hread : (d.add entry.1 .page).readPage paths package = d.readPage paths package := rfl
    rw [writePages, forM_cons, readPage]
    cases htext : entry.2.text paths <;> simp only [ih, hread, bind_assoc, note_cons] <;> rfl

/-- Pages are noted when the packages in front are written. -/
theorem writePackages_eq (hroot : d.root = start.root)
    (hpages : ∀ package ∈ packages, d.pagesOf package = start.pagesOf package)
    (hapart : start.Apart packages) :
    writePackages paths d packages = (forM packages (start.readPackage paths) >>= fun _ =>
      pure (packages.map start.listing, d.note (packages.flatMap start.pagesOf))) := by
  induction packages generalizing d with
  | nil => rfl
  | cons package packages ih =>
    obtain ⟨hfront, hrest⟩ := pairwise_cons.mp hapart
    have hpackage : ((d.packages.get? package).getD {}).entries = start.pagesOf package := hpages package mem_cons_self
    have hkept : ∀ later ∈ packages, (d.note (start.pagesOf package)).pagesOf later = start.pagesOf later := by
      intro later hlater
      rw [pagesOf_note fun entry hentry => hfront later hlater entry hentry]
      exact hpages later (mem_cons_of_mem _ hlater)
    have hread : d.readPage paths package = start.readPage paths package := by
      unfold readPage pageRoot
      rw [hroot]
    have hlast : (d.note (start.pagesOf package)).note (packages.flatMap start.pagesOf) =
        d.note ((package :: packages).flatMap start.pagesOf) := by
      rw [flatMap_cons, note, note, note, foldl_append]
    rw [writePackages, forM_cons, readPackage]
    simp only [hpackage, writePages_eq, hread, bind_assoc, pure_bind, ih ((root_note _ _).trans hroot) hkept hrest,
      hlast, pageRoot, hroot]
    rfl

/-- A package has a page that declares nothing. -/
def Spoiled (d : Documentation) (package : String) : Prop :=
  ∃ name page, d.page? package name = some page ∧ page.subject = .page

theorem page?_add (d : Documentation) (full package name : String) (subject : Subject) :
    (d.add full subject).page? package name =
      if splitName full = (package, name) then some { package, name, subject } else d.page? package name := by
  rcases hsplit : splitName full with ⟨package', name'⟩
  rw [page?, add, hsplit, Table.get?_insert]
  by_cases hpackage : package' = package
  · subst hpackage
    by_cases hname : name' = name <;> simp [page?, hname, Table.get?_insert]
    cases d.packages.get? package' <;> rfl
  · simp [page?, hpackage]

theorem mem_pagesOf (h : d.page? package name = some page) : (name, page) ∈ d.pagesOf package := by
  obtain ⟨table, htable, hget⟩ := Option.bind_eq_some_iff.mp h
  rw [pagesOf, htable]
  exact Table.mem_entries_of_get? hget

theorem mem_order (h : d.page? package name = some page) : package ∈ d.order := by
  obtain ⟨table, htable, -⟩ := Option.bind_eq_some_iff.mp h
  exact mem_orderedSet.mpr ((Table.mem_keys_iff _ _).mpr ⟨table, htable⟩)

theorem Spoiled.note (h : d.Spoiled package) (entries : List (String × Page)) : (d.note entries).Spoiled package := by
  induction entries generalizing d with
  | nil => exact h
  | cons entry entries ih =>
    obtain ⟨name, page, hpage, hsubject⟩ := h
    refine ih ?_
    by_cases hsplit : splitName entry.1 = (package, name)
    · exact ⟨name, _, (page?_add ..).trans (if_pos hsplit), rfl⟩
    · exact ⟨name, page, (page?_add ..).trans ((if_neg hsplit).trans hpage), hsubject⟩

theorem spoiled_note {entry : String × Page} (h : entry ∈ entries) (d : Documentation) :
    (d.note entries).Spoiled (splitName entry.1).1 := by
  induction entries generalizing d with
  | nil => exact absurd h not_mem_nil
  | cons first entries ih =>
    rcases mem_cons.mp h with rfl | h
    · exact Spoiled.note ⟨_, _, (page?_add ..).trans (if_pos rfl), rfl⟩ entries
    · exact ih h _

theorem declares_of_readPages {u : PUnit} (h : (forM entries (d.readPage paths package)).run tree = (.ok u, tree')) :
    ∀ entry ∈ entries, entry.2.subject ≠ .page := by
  induction entries generalizing tree with
  | nil => exact fun _ h => absurd h not_mem_nil
  | cons entry entries ih =>
    rw [forM_cons] at h
    obtain ⟨_, _, hpage, hrest⟩ := FileWork.ok_of_bind h
    refine forall_mem_cons.mpr ⟨fun hsubject => ?_, ih hrest⟩
    have htext : entry.2.text paths = .error .noDeclarations := by rw [Page.text, hsubject]
    rw [readPage] at hpage
    obtain ⟨_, _, -, hfail⟩ := FileWork.ok_of_bind hpage
    rw [htext] at hfail
    cases hfail

/-- A package that is written is not spoiled, and its pages are noted before the others. -/
theorem writePackages_cons_ok (h : (writePackages paths d (package :: packages)).run tree = (.ok r, tree')) :
    ¬ d.Spoiled package ∧ ∃ r' tree₁ tree₂,
      (writePackages paths (d.note (d.pagesOf package)) packages).run tree₁ = (.ok r', tree₂) := by
  rw [writePackages] at h
  obtain ⟨_, _, -, h⟩ := FileWork.ok_of_bind h
  obtain ⟨noted, _, hpages, h⟩ := FileWork.ok_of_bind h
  obtain ⟨_, _, -, h⟩ := FileWork.ok_of_bind h
  obtain ⟨r', _, hothers, -⟩ := FileWork.ok_of_bind h
  rw [writePages_eq] at hpages
  obtain ⟨_, _, hread, hnoted⟩ := FileWork.ok_of_bind hpages
  cases hnoted
  refine ⟨fun hspoiled => ?_, r', _, _, hothers⟩
  obtain ⟨name, page, hpage, hsubject⟩ := hspoiled
  exact declares_of_readPages hread _ (mem_pagesOf hpage) hsubject

theorem not_spoiled_of_writePackages (h : (writePackages paths d packages).run tree = (.ok r, tree')) :
    ∀ package ∈ packages, ¬ d.Spoiled package := by
  induction packages generalizing d tree tree' r with
  | nil => exact fun _ h => absurd h not_mem_nil
  | cons package packages ih =>
    obtain ⟨hpackage, _, _, _, hrest⟩ := writePackages_cons_ok h
    refine forall_mem_cons.mpr ⟨hpackage, ?_⟩
    intro later hlater hspoiled
    exact ih hrest later hlater (hspoiled.note _)

theorem apart_of_writePackages (hpages : ∀ package ∈ packages, d.pagesOf package = start.pagesOf package)
    (h : (writePackages paths d packages).run tree = (.ok r, tree')) :
    start.Apart packages := by
  induction packages generalizing d tree tree' r with
  | nil => exact .nil
  | cons package packages ih =>
    obtain ⟨-, _, _, _, hrest⟩ := writePackages_cons_ok h
    have hfront : ∀ later ∈ packages, ∀ entry ∈ d.pagesOf package, (splitName entry.1).1 ≠ later := by
      rintro _ hlater entry hentry rfl
      exact not_spoiled_of_writePackages hrest _ hlater (spoiled_note hentry d)
    refine pairwise_cons.mpr ⟨hpages package mem_cons_self ▸ hfront, ih (fun later hlater => ?_) hrest⟩
    rw [pagesOf_note (hfront later hlater), hpages later (mem_cons_of_mem _ hlater)]

/-- The work ends with an error on every tree. -/
def Fails {α : Type} (work : FileWork WriteError α) : Prop :=
  ∀ tree a tree', work.run tree ≠ (.ok a, tree')

theorem exists_of_write (h : (d.write paths).run tree = (.ok d', tree')) :
    ∃ r tree₁ tree₂, (writePackages paths d d.order).run tree₁ = (.ok r, tree₂) := by
  rw [write] at h
  obtain ⟨_, _, -, h⟩ := FileWork.ok_of_bind h
  obtain ⟨_, _, -, h⟩ := FileWork.ok_of_bind h
  obtain ⟨r, _, hpackages, -⟩ := FileWork.ok_of_bind h
  exact ⟨r, _, _, hpackages⟩

theorem write_eq (hapart : d.Apart d.order) : d.write paths = (d.read paths >>= fun _ => pure d.noted) := by
  have hroot : d.noted.pageRoot = d.pageRoot := by rw [pageRoot, noted, root_note, pageRoot]
  rw [write, read, ← order, writePackages_eq rfl (fun _ _ => rfl) hapart, ← noted]
  simp only [bind_assoc, pure_bind, hroot]

theorem fails_of_not_apart (hclash : ¬ d.Apart d.order) : Fails (d.write paths) := by
  intro tree d' tree' h
  obtain ⟨r, _, _, hpackages⟩ := exists_of_write h
  exact hclash (apart_of_writePackages (fun _ _ => rfl) hpackages)

theorem fails_noted (hpage : d.page? package name = some page) : Fails (d.noted.write paths) := by
  intro tree d' tree' h
  obtain ⟨r, _, _, hpackages⟩ := exists_of_write h
  have hspoiled : d.noted.Spoiled (splitName name).1 :=
    spoiled_note (mem_flatMap.mpr ⟨package, mem_order hpage, mem_pagesOf hpage⟩) d
  obtain ⟨other, page', hpage', -⟩ := id hspoiled
  exact not_spoiled_of_writePackages hpackages _ (mem_order hpage') hspoiled

/-- The component that was added last under a name. -/
def added? (components : List (String × Tree)) (package name : String) : Option (String × Tree) :=
  components.reverse.find? fun component => splitName component.1 = (package, name)

theorem page?_documented (root : String) (components : List (String × Tree)) (package name : String) :
    (documented root components).page? package name =
      (added? components package name).map fun component => { package, name, subject := .component component.2 } := by
  suffices h : ∀ d : Documentation,
      (components.foldl (fun d component => d.addTree component.1 component.2) d).page? package name =
        ((added? components package name).map fun component =>
          { package, name, subject := .component component.2 }).or (d.page? package name) by
    exact (h { root }).trans (Option.or_none ..)
  unfold added?
  induction components with
  | nil => exact fun d => rfl
  | cons component components ih =>
    intro d
    rw [foldl_cons, ih, addTree, page?_add, reverse_cons, find?_append, find?_singleton]
    by_cases hsplit : splitName component.1 = (package, name) <;>
      cases components.reverse.find? fun component => splitName component.1 = (package, name) <;> simp [hsplit]

/-- Components that are added have a page each, the last one of a name. Their documentation is written as if it was
only read unless a page is noted in a package that comes later; then it is not written. It is not written again. -/
theorem write_documented (paths : PathMap) (root : String) (components : List (String × Tree)) :
    let d := documented root components
    (∀ package name, d.page? package name =
      (added? components package name).map fun component => { package, name, subject := .component component.2 }) ∧
    (d.Apart d.order → d.write paths = (d.read paths >>= fun _ => pure d.noted)) ∧
    (¬ d.Apart d.order → Fails (d.write paths)) ∧
    (components ≠ [] → Fails (d.noted.write paths)) := by
  refine ⟨page?_documented root components, write_eq, fails_of_not_apart, fun hsome => ?_⟩
  obtain ⟨component, hcomponent⟩ := exists_mem_of_ne_nil components hsome
  have hadded : (added? components (splitName component.1).1 (splitName component.1).2).isSome = true :=
    find?_isSome.mpr ⟨component, mem_reverse.mpr hcomponent, by simp⟩
  obtain ⟨last, hlast⟩ := Option.isSome_iff_exists.mp hadded
  exact fails_noted ((page?_documented root components _ _).trans (by rw [hlast]; rfl))

theorem write_documented_gallery :
    let d := documented "doc" [("core.Item", .component none "Object" []), ("ui.Gallery", .component none "Item" [])]
    d.Apart d.order ∧ d.write {} = (d.read {} >>= fun _ => pure d.noted) ∧ Fails (d.noted.write {}) := by
  have hapart : (documented "doc" [("core.Item", .component none "Object" []),
      ("ui.Gallery", .component none "Item" [])]).Apart ["core", "ui"] := by
    unfold Apart
    decide
  obtain ⟨-, hwrite, -, hagain⟩ := write_documented {} "doc"
    [("core.Item", .component none "Object" []), ("ui.Gallery", .component none "Item" [])]
  exact ⟨hapart, hwrite hapart, hagain (by decide)⟩

/-- The page of a component is noted in a package that comes later, and in one that was not there. -/
theorem pages_noted_elsewhere :
    Fails ((documented "doc" [("a.bc", .component none "Item" []), ("b.X", .component none "Item" [])]).write {}) ∧
      ((documented "doc" [("a.Foo", .component none "Item" [])]).page? "Fo" "Foo").isNone = true ∧
      ((documented "doc" [("a.Foo", .component none "Item" [])]).noted.page? "Fo" "Foo").isSome = true := by
  refine ⟨fails_of_not_apart ?_, by decide⟩
  unfold Apart
  decide

end Documentation
end QmlScript
