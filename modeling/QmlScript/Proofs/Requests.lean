import QmlScript.Proofs.Invariants
import QmlScript.Proofs.Registration

/-!
# Requests for components

A script asks for a component by a name, and that very name is marked as used; but a component is registered
under a name whose package is escaped. Unless escaping leaves the package as it is, no program can be
generated.
-/

namespace QmlScript.Registry

open List Package Table

variable {r P start : Registry} {name : String} {S : List String} {wanted : List String} {width : Nat}

/-- Components whose sections can be generated: what they ask for is among them, and bases lead downwards. -/
structure Resolvable (P : Registry) (S : List String) : Prop where
  generated : ∀ name ∈ S, ∃ code, (sectionRun P name).1 = .ok code
  resolved : ∀ name ∈ S, ∀ other ∈ resolvedBy P name, other = root ∨ other ∈ S
  base : ∀ name ∈ S, ∃ base, (baseRun P name).1 = .ok base ∧ (base = root ∨ base ∈ S)
  downwards : ∃ rank : String → Nat, ∀ name ∈ S, ∀ base, (baseRun P name).1 = .ok base →
    base = root ∨ rank base < rank name

theorem Resolves.run_of_ok {α : Type} {w : Work α} [Resolves w] (hr : r.bare = P.bare)
    (ho : NameSet.Ordered r.usedComponents) {a : α} (h : (run w P.unmarked).1 = .ok a) :
    ∃ s, run w r = (.ok a, s) ∧ s.bare = P.bare ∧ NameSet.Ordered s.usedComponents := by
  have hm := marking w hr ho
  rw [run_eq_of_ok h] at hm
  generalize run w r = x at hm
  cases hm with
  | done _ hm => exact ⟨_, rfl, hm.left, hm.left_ordered⟩

theorem exists_component {code : String} (h : (sectionRun P name).1 = .ok code) :
    ∃ c, P.unmarked.components.get? name = some c := by
  obtain ⟨c, s, hc, -⟩ := run_bind_ok (run_eq_of_ok h)
  exact ⟨c, (run_component_ok hc).1⟩

theorem Resolvable.run_generateSection (hS : Resolvable P S) (hname : name ∈ S) (hr : r.bare = P.bare)
    (sections : Sections) : ∃ next s, run (generateSection sections name) r.unmarked = (.ok next, s) := by
  obtain ⟨code, hcode⟩ := hS.generated name hname
  obtain ⟨base, hbase, -⟩ := hS.base name hname
  obtain ⟨c, hget⟩ := exists_component hcode
  rw [sectionRun, run_component_bind hget] at hcode
  rw [baseRun, run_component_bind hget] at hbase
  have hget' : r.unmarked.components.get? name = some c := by
    rw [← hget]
    exact congrArg (fun t => t.get? name) (components_eq_of_bare hr)
  obtain ⟨r₁, h₁, hr₁, ho₁⟩ := Resolves.run_of_ok (r := r.unmarked) hr Pairwise.nil hbase
  obtain ⟨r₂, h₂, -, -⟩ := Resolves.run_of_ok hr₁ ho₁ hcode
  rw [generateSection, run_component_bind hget', run_bind_of_ok h₁]
  dsimp only
  split
  · exact ⟨_, _, rfl⟩
  · rw [run_bind_of_ok h₂]
    exact ⟨_, _, rfl⟩

/-- Only components of `S` wait or have sections. -/
structure Loop.Within (S : List String) (l : Loop) : Prop where
  waiting : ∀ name ∈ l.waiting, name ∈ S
  has : ∀ name, l.sections.has name = true → name = root ∨ name ∈ S

theorem Round.within (hS : Resolvable P S) {l next : Loop} {event : Event} (h : Round l event next)
    (hl : l.Goes P wanted width) (hw : l.Within S) : next.Within S := by
  cases h with
  | @take name queue sections r hwaiting hrun =>
    obtain ⟨base, ht⟩ := hl.taken hrun
    have hname : name ∈ S := hw.waiting name (hwaiting ▸ mem_cons_self)
    refine ⟨fun other ho => ?_, fun other ho => ?_⟩
    · rcases mem_append.mp ho with ho | ho
      · exact hw.waiting other (hwaiting ▸ mem_cons_of_mem _ ho)
      · obtain ⟨hused, hhas⟩ := mem_filter.mp ho
        have hroot : other ≠ root := fun hroot => by simp [Sections.has, hroot] at hhas
        rcases ht.marked other hused with rfl | hres
        · obtain ⟨base, hbase, hmem⟩ := hS.base name hname
          obtain rfl := Except.ok.inj (ht.base_eq.symm.trans hbase)
          exact hmem.resolve_left hroot
        · exact (hS.resolved name hname other hres).resolve_left hroot
    · rcases (ht.has other).mp ho with rfl | ho
      · exact .inr hname
      · exact hw.has other ho
  | drop _ hwaiting => exact ⟨fun _ ho => absurd ho not_mem_nil, hw.has⟩

theorem Rounds.within (hS : Resolvable P S) {l last : Loop} {events : List Event} (h : Rounds l events last)
    (hl : l.Goes P wanted width) (hw : l.Within S) : last.Within S := by
  induction h with
  | nil => exact hw
  | cons h _ ih => exact ih (h.goes hl).1 (h.within hS hl hw)

theorem Loop.start_within (hcontext : context ∈ S) (hused : ∀ name ∈ P.usedComponents, name = root ∨ name ∈ S) :
    (Loop.start P).Within S := by
  refine ⟨fun name hname => ?_, fun name hname => .inl ?_⟩
  · rcases mem_append.mp hname with hname | hname
    · exact mem_singleton.mp hname ▸ hcontext
    · obtain ⟨hmem, hhas⟩ := mem_filter.mp hname
      exact (hused name hmem).resolve_left fun hroot => by simp [Sections.has, hroot] at hhas
  · exact ((Sections.has_iff _ _).mp hname).resolve_right not_mem_nil

theorem Resolvable.sectionOrder (hS : Resolvable P S) {sections : Sections} (hp : Progress P wanted width [] sections)
    (hhas : ∀ name, sections.has name = true → name = root ∨ name ∈ S) :
    ∃ order, sectionOrder sections.bases = .ok order := by
  obtain ⟨rank, hrank⟩ := hS.downwards
  refine sectionOrder_downwards rank fun name base hbase => ?_
  have hkey : name ∈ sections.code.keys := hp.keys ▸ (mem_keys_iff _ _).mpr ⟨base, hbase⟩
  have hrun := hp.base name base hbase
  have hname : name ∈ S := (hhas name ((Sections.has_iff _ _).mpr (.inr hkey))).resolve_left fun hroot =>
    hp.rootless.1 (hroot ▸ hkey)
  rcases (Sections.has_iff _ _).mp ((hp.closed name hkey base (.inr hrun)).resolve_right not_mem_nil) with h | h
  · exact .inl h
  · exact (hrank name hname base hrun).imp_right fun hlt => ⟨hp.keys ▸ h, hlt⟩

theorem generatePrepared_resolvable (hS : Resolvable P S) (hcontext : context ∈ S)
    (hused : ∀ name ∈ P.usedComponents, name = root ∨ name ∈ S) : ∃ text Q, run generatePrepared P = (.ok text, Q) := by
  obtain ⟨events, last, hrounds, hstops⟩ := exists_rounds _ (Loop.start_goes P) (Loop.start_roundsLeft P)
  have hlast := (hrounds.goes (Loop.start_goes P)).1.bare
  have hw := hrounds.within hS (Loop.start_goes P) (Loop.start_within hcontext hused)
  generalize hrun : run (generateQueue (roundBound P) _ _) _ = result at hstops
  cases hstops with
  | ended =>
    obtain ⟨order, horder⟩ := hS.sectionOrder
      (generateQueue_progress (Loop.start_goes P) (Loop.start_roundsLeft P) hrun) hw.has
    change run (generateQueue (roundBound P) [rootPackage ++ "." ++ contextName] {}) P = _ at hrun
    rw [generatePrepared, run_bind, run_get]
    dsimp only
    rw [run_bind_of_ok hrun, run_bind, run_check, horder]
    exact ⟨_, _, rfl⟩
  | @refused name queue e s hwaiting hsection =>
    obtain ⟨next, s, hok⟩ := hS.run_generateSection (hw.waiting name (hwaiting ▸ mem_cons_self)) hlast last.sections
    cases hok.symm.trans hsection

theorem after_grows (calls : List Call) (r : Registry) :
    r.usedComponents ⊆ (after calls r).usedComponents ∧ r.components.keys ⊆ (after calls r).components.keys := by
  induction calls generalizing r with
  | nil => exact ⟨Subset.refl _, Subset.refl _⟩
  | cons call calls ih =>
    obtain ⟨hused, hkeys⟩ := ih (run call.work r).2
    suffices hone : r.usedComponents ⊆ (run call.work r).2.usedComponents ∧
        r.components.keys ⊆ (run call.work r).2.components.keys from
      ⟨Subset.trans hone.1 hused, Subset.trans hone.2 hkeys⟩
    have hannounce : ∀ (a : Addition) key, r.usedComponents ⊆ (a.announce key r).usedComponents := by
      intro a key
      rw [Addition.announce]
      split
      · exact Subset.refl _
      · exact fun name hname => (NameSet.mem_add _ _ _).mpr (.inr hname)
    generalize hs : (run call.work r).2 = s
    cases Call.leaves hs with
    | same => exact ⟨Subset.refl _, Subset.refl _⟩
    | announced => exact ⟨hannounce _ _, Subset.refl _⟩
    | registered => exact ⟨hannounce _ _, fun name hname => (mem_keys_insert _ _ _ _).mpr (.inr hname)⟩
    | imported => exact ⟨Subset.refl _, Subset.refl _⟩
    | scanned =>
      refine ⟨fun name hname => (mem_used_requests _ _ _).mpr (.inr hname), ?_⟩
      rw [foldl_request_rest]
      exact Subset.refl _

theorem after_append (front : List Call) (call : Call) (back : List Call) (r : Registry) :
    after (front ++ call :: back) r = after back (run call.work (after front r)).2 := by
  rw [after, foldl_append]
  rfl

theorem mem_used_of_scan {calls : List Call} {code : String} (hcall : .scan code ∈ calls) (h : name ∈ requests code) :
    name ∈ (after calls r).usedComponents := by
  obtain ⟨front, back, rfl⟩ := append_of_mem hcall
  rw [after_append]
  refine (after_grows back _).1 ?_
  rw [Call.work, run_scanUsing]
  exact (mem_used_requests _ _ _).mpr (.inl h)

/-- A name is asked for in a script that was scanned or is in the program. -/
def Requested (calls : List Call) (r : Registry) (name : String) : Prop :=
  (∃ code, .scan code ∈ calls ∧ name ∈ requests code) ∨ ∃ code ∈ r.imports.values, name ∈ requests code

/-- All is in order apart from the request for `asked`: components can be prepared, and what is used is resolvable. -/
structure ElseResolves (start P : Registry) (S : List String) (asked full : String) : Prop where
  prepared : run prepareProgram start = (.ok (), P)
  resolvable : Resolvable P S
  context_mem : context ∈ S
  full_mem : full ∈ S
  used : ∀ name ∈ P.usedComponents, name = root ∨ name ∈ S ∨ name = asked

/-- A type that was registered is part of the program if a script asks for it by its name and all else resolves,
provided that its package has an escaped name; otherwise no program can be generated. Only the root of all types
has no section. -/
theorem request_met_iff_escaped (hr : Reachable r) (package name : String) (hname : '.' ∉ name.toList) {asked : String}
    (hasked : asked = package ++ "." ++ name) {tree : Tree} {front : List Call} (back : List Call)
    (hadd : (run (addComponent asked tree true) (after front r)).1 = .ok ())
    (hstart : start = after (front ++ .add ⟨asked, tree, true⟩ :: back) r)
    (hrequested : Requested (front ++ .add ⟨asked, tree, true⟩ :: back) start asked) :
    escapeSegments package ++ "." ++ name ∈ start.components.keys ∧
    (escapeSegments package = package → ∀ P S, ElseResolves start P S asked (escapeSegments package ++ "." ++ name) →
      ∃ text order, (run generateComponents start).1 = .ok text ∧ emitted P = .ok order ∧
        Contains start P text order ∧ (asked ∈ order ↔ asked ≠ root)) ∧
    (escapeSegments package ≠ package → ∀ text, (run generateComponents start).1 ≠ .ok text) := by
  have hsplit : splitName asked = (package, name) := by rw [hasked, splitName_append _ hname]
  have hused : ∀ {P}, run prepareProgram start = (.ok (), P) → asked ∈ P.usedComponents := fun hprep =>
    prepareProgram_used hprep <| hrequested.imp (fun ⟨code, hcall, hmem⟩ => hstart ▸ mem_used_of_scan hcall hmem)
      fun ⟨code, hcode, hmem⟩ => mem_flatMap.mpr ⟨code, hcode, hmem⟩
  refine ⟨?_, fun hescaped P S h => ?_, fun hescaped text htext => ?_⟩
  · obtain ⟨-, key, c, hkey, -, hs⟩ := (run_add_ok_iff ⟨asked, tree, true⟩ _ _).mp (run_eq_of_ok hadd)
    rw [Addition.key?, if_pos rfl, Addition.package, Addition.localName, hsplit] at hkey
    have hnew : key ∈ (Addition.register ⟨asked, tree, true⟩ key c (after front r)).components.keys :=
      (mem_keys_insert _ _ _ _).mpr (.inl rfl)
    rw [hstart, after_append, Option.some.inj hkey]
    rw [← hs] at hnew
    exact (after_grows back _).2 hnew
  · have hmem : asked ∈ S := by
      have hfull := h.full_mem
      rwa [hescaped, ← hasked] at hfull
    obtain ⟨text, Q, hrun⟩ := generatePrepared_resolvable h.resolvable h.context_mem fun other ho =>
      (h.used other ho).imp_right fun ho => ho.elim id fun heq => heq ▸ hmem
    obtain ⟨sections, order, -, hemitted, hp, horder, rfl⟩ := generatePrepared_ok hrun
    have hplaced := sectionOrder_placed horder
    refine ⟨_, order, ?_, hemitted, hp.contains h.prepared horder, fun hin hroot => ?_, fun hroot => ?_⟩
    · rw [generateComponents_eq, run_bind_of_ok h.prepared, hrun]
    · exact hp.rootless.1 (hp.keys ▸ hroot ▸ hplaced.1.known asked hin)
    · have hin := (hp.wanted asked (mem_cons_of_mem _ (hused h.prepared))).resolve_right not_mem_nil
      have hkey := ((Sections.has_iff _ _).mp hin).resolve_left hroot
      exact (hplaced.2 asked (hp.keys ▸ hkey)).resolve_left hroot
  · obtain ⟨P, sections, order, hprep, -, hp, -⟩ := generateComponents_ok htext
    have hsound : Sound P := by
      have hkeeps := Sound.steady.prepareProgram start (hstart ▸ (hr.after _).sound)
      rwa [hprep] at hkeeps
    have hin := (hp.wanted asked (mem_cons_of_mem _ (hused hprep))).resolve_right not_mem_nil
    have hof : ofName asked = package := congrArg Prod.fst hsplit
    rcases (Sections.has_iff _ _).mp hin with rfl | hkey
    · exact hescaped (hof ▸ by decide +kernel)
    · obtain ⟨code, hcode⟩ := (mem_keys_iff _ _).mp hkey
      obtain ⟨c, hc⟩ := exists_component (hp.code asked code hcode)
      have hescape := hsound.escaped _ (hsound.declared asked ((mem_keys_iff _ _).mpr ⟨c, hc⟩))
      rw [hof] at hescape
      exact hescaped hescape

/-- A program with a button, which extends a type of its package, and a script that asks for it. -/
def buttonProgram : Registry :=
  after ([declare "core.Context" "CoreObject", declare "ui.Item" "CoreObject"] ++
    declare "ui.Button" "Item" :: [.scan "@using \x7b ui.Button \x7d"]) (fresh "qml" "1")

def buttonTypes : List String := ["core.Context", "ui.Item", "ui.Button"]

theorem buttonTypes_resolvable : Resolvable (run prepareProgram buttonProgram).2 buttonTypes := by
  let P := (run prepareProgram buttonProgram).2
  have hgenerated : ∀ name ∈ buttonTypes, (sectionRun P name).1.isOk = true ∧
      ∀ other ∈ resolvedBy P name, other = root ∨ other ∈ buttonTypes := by
    decide +kernel
  have hbases : ∀ name ∈ buttonTypes,
      (baseRun P name).1.toOption = some (if name = "ui.Button" then "ui.Item" else root) := by
    decide +kernel
  have hbase := fun name hname => eq_ok_of_toOption (hbases name hname)
  refine ⟨fun name hname => exists_of_isOk (hgenerated name hname).1, fun name hname => (hgenerated name hname).2,
    fun name hname => ⟨_, hbase name hname, ?_⟩, fun name => if name = "ui.Button" then 1 else 0,
    fun name hname base h => ?_⟩
  · split <;> simp [buttonTypes]
  · obtain rfl := Except.ok.inj ((hbase name hname).symm.trans h)
    split <;> simp [*]

set_option maxRecDepth 100000

theorem request_met_button :
    ∃ P text order, (run generateComponents buttonProgram).1 = .ok text ∧ Contains buttonProgram P text order ∧
      "ui.Button" ∈ order := by
  have hadd : (run (addComponent "ui.Button" (.component none "Item" []) true)
      (after [declare "core.Context" "CoreObject", declare "ui.Item" "CoreObject"] (fresh "qml" "1"))).1 = .ok () :=
    eq_ok_of_toOption (by decide +kernel)
  have hprep : (run prepareProgram buttonProgram).1 = .ok () := eq_ok_of_toOption (by decide +kernel)
  have hmet := request_met_iff_escaped (.fresh "qml" "1") "ui" "Button" (by decide) (by decide)
    [.scan "@using \x7b ui.Button \x7d"] hadd (rfl : buttonProgram = _)
    (.inl ⟨_, mem_append_right _ (.tail _ (.head _)), by decide +kernel⟩)
  obtain ⟨text, order, htext, -, hcontains, hmem⟩ := hmet.2.1 (by decide +kernel) (run prepareProgram buttonProgram).2
    buttonTypes ⟨run_eq_of_ok hprep, buttonTypes_resolvable, by decide, by decide +kernel, by decide +kernel⟩
  exact ⟨_, text, order, htext, hcontains, hmem.mpr (by decide)⟩

/-- A type of a package with a hyphen is registered, but a script that asks for it makes the program fail. A script
that asks for the name under which it is registered does not. -/
theorem request_fails_of_hyphen :
    let calls (asked : String) : List Call := [declare "core.Context" "CoreObject", declare "my-ui.Button" "CoreObject",
      .scan ("@using \x7b " ++ asked ++ " \x7d")]
    allRegistered (calls "my-ui.Button") (fresh "qml" "1") = true ∧
      (run generateComponents (after (calls "my-ui.Button") (fresh "qml" "1"))).1.isOk = false ∧
      (run generateComponents (after (calls "my_ui.Button") (fresh "qml" "1"))).1.isOk = true := by
  decide +kernel

end QmlScript.Registry
