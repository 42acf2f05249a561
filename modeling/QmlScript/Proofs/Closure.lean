import Mathlib.Tactic.Ring
import QmlScript.Proofs.Placement
import QmlScript.Proofs.Preparation
import QmlScript.Proofs.Queue

/-!
# A program contains what it uses

The sections of a program are those of the context, of everything that was marked or asked for, and of
everything that is resolved for a section, each once and behind its base. Only the root of all types has no
section.
-/

namespace QmlScript.Registry

open List

def requests (code : String) : List String := Text.findAll using? code.toList

def request (r : Registry) (name : String) : Registry :=
  (r.use name).usePackage (Package.escapeSegments (Package.ofName name))

theorem run_scanUsing (code : String) (r : Registry) :
    run (scanUsing code) r = (.ok (), (requests code).foldl request r) := by
  unfold scanUsing
  show run _ r = (.ok (), (Text.findAll using? code.toList).foldl request r)
  generalize Text.findAll using? code.toList = names
  induction names generalizing r with
  | nil => rfl
  | cons name names ih =>
    rw [forIn_cons, foldl_cons, ← ih]
    rfl

theorem run_scanAll (codes : List String) (r : Registry) :
    run (scanAll codes) r = (.ok (), (codes.flatMap requests).foldl request r) := by
  unfold scanAll
  induction codes generalizing r with
  | nil => rfl
  | cons code codes ih =>
    rw [forIn_cons, flatMap_cons, foldl_append, ← ih, bind_assoc, bind_assoc]
    exact run_bind_of_ok (run_scanUsing code r)

theorem mem_used_requests (names : List String) (r : Registry) (other : String) :
    other ∈ (names.foldl request r).usedComponents ↔ other ∈ names ∨ other ∈ r.usedComponents := by
  induction names generalizing r with
  | nil => simp
  | cons name names ih =>
    rw [foldl_cons, ih, mem_cons]
    simp only [request, usePackage, use, NameSet.mem_add]
    exact or_left_comm.trans or_assoc.symm

theorem generateComponents_eq : generateComponents = prepareProgram >>= fun _ => generatePrepared := rfl

theorem markProgram_used {r P : Registry} (h : run markProgram r = (.ok (), P)) {name : String}
    (hn : name ∈ r.usedComponents ∨ name ∈ r.imports.values.flatMap requests) :
    name ∈ P.usedComponents := by
  unfold markProgram at h
  rw [run_bind, run_get] at h
  dsimp only at h
  rw [run_bind_of_ok (run_scanAll _ r)] at h
  obtain ⟨context, r₁, hfind, h₁⟩ := run_bind_ok h
  obtain ⟨c, r₂, hcomp, h₂⟩ := run_bind_ok h₁
  obtain ⟨_, rfl⟩ := run_component_ok hcomp
  obtain ⟨_, rfl⟩ := Prod.mk.inj h₂
  have hscan : name ∈ ((r.imports.values.flatMap requests).foldl request r).usedComponents :=
    (mem_used_requests _ r name).mpr hn.symm
  rcases run_find_ok hfind with ⟨_, rfl⟩ | ⟨_, rfl⟩
  · exact hscan
  · exact (NameSet.mem_add _ _ _).mpr (.inr hscan)

theorem prepareProgram_used {r P : Registry} (h : run prepareProgram r = (.ok (), P)) {name : String}
    (hn : name ∈ r.usedComponents ∨ name ∈ r.imports.values.flatMap requests) :
    name ∈ P.usedComponents := by
  obtain ⟨_, s, hmark, h₁⟩ := run_bind_ok h
  rw [run_bind, run_get] at h₁
  rw [run_prepareAll_rest h₁]
  exact markProgram_used hmark hn

def context : String := rootPackage ++ "." ++ contextName

/-- The components of a prepared program, in the order of their sections. -/
def emitted (P : Registry) : Except Error (List String) :=
  (run (do
    let sections ← generateQueue (roundBound P) [context] {}
    check (sectionOrder sections.bases)) P).1

/-- The number of components that can ever wait for their sections. -/
def maxWidth (P : Registry) : Nat :=
  P.usedComponents.length + (P.components.size + 1) * (P.declaredNames.length + 1) + 2

theorem roundBound_eq (P : Registry) : roundBound P = 2 * (P.components.size + 2) * maxWidth P := by
  simp only [roundBound, maxWidth, length_declaredNames]

theorem missing_le (P : Registry) (sections : Sections) : missing P sections ≤ P.components.size := by
  rw [← Table.length_keys]
  exact length_filter_le _ _

theorem initial_progress (P : Registry) :
    Progress P (context :: P.usedComponents) (maxWidth P) (waiting [context] {} P) {} where
  keys := rfl
  code _ _ h := by simp [Table.get?, Table.lookup] at h
  base _ _ h := by simp [Table.get?, Table.lookup] at h
  rootless := by
    refine ⟨by simp [Table.keys], fun h => ?_⟩
    rcases mem_append.mp h with h | h
    · exact absurd (mem_singleton.mp h) (by decide)
    · simp [Sections.has] at h
  wanted name h := by
    rcases mem_cons.mp h with rfl | h
    · exact Or.inr (mem_append_left _ (mem_singleton_self _))
    · exact marked_waits h
  closed name h := by simp [Table.keys] at h
  narrow := by
    have hfilter := length_filter_le (fun name => !({} : Sections).has name) P.usedComponents
    have hmul := Nat.mul_le_mul_right P.declaredNames.length (missing_le P {})
    simp only [waiting, maxWidth, length_append, length_singleton]
    have hsucc : (P.components.size + 1) * (P.declaredNames.length + 1) =
        P.components.size * P.declaredNames.length + P.components.size + P.declaredNames.length + 1 := by
      ring
    omega

theorem initial_roundsLeft (P : Registry) : roundsLeft P (maxWidth P) (waiting [context] {} P) {} < roundBound P := by
  have hdist := distance_le {} (maxWidth P) (waiting [context] {} P)
  have hnarrow := (initial_progress P).narrow
  have hmul := Nat.mul_le_mul_right (2 * maxWidth P) (missing_le P {})
  have hbound : 2 * (P.components.size + 2) * maxWidth P =
      P.components.size * (2 * maxWidth P) + 4 * maxWidth P := by ring
  rw [roundBound_eq, hbound, roundsLeft]
  omega

/-- The loop before its first round. -/
def Loop.start (P : Registry) : Loop := ⟨[context], {}, P⟩

theorem Loop.start_goes (P : Registry) : (start P).Goes P (context :: P.usedComponents) (maxWidth P) :=
  ⟨rfl, initial_progress P⟩

theorem Loop.start_roundsLeft (P : Registry) : (start P).roundsLeft P (maxWidth P) ≤ roundBound P := by
  have hleft := initial_roundsLeft P
  rw [Loop.roundsLeft]
  split
  · exact Nat.zero_le _
  · exact hleft

theorem exists_of_isOk {α : Type} {result : Except Error α} (h : result.isOk = true) : ∃ a, result = .ok a := by
  cases result with
  | error e => exact absurd h (by simp [Except.isOk, Except.toBool])
  | ok a => exact ⟨a, rfl⟩

/-- Generated sections have worked their queue off, and their text is that of the sections in order. -/
theorem generatePrepared_ok {P Q : Registry} {text : String} (h : run generatePrepared P = (.ok text, Q)) :
    ∃ sections order, run (generateQueue (roundBound P) [context] {}) P = (.ok sections, Q) ∧
      emitted P = .ok order ∧ Progress P (context :: P.usedComponents) (maxWidth P) [] sections ∧
      sectionOrder sections.bases = .ok order ∧
      text = String.join (order.map fun name => (sections.code.get? name).getD "") := by
  unfold generatePrepared at h
  rw [run_bind, run_get] at h
  obtain ⟨sections, s, hqueue, h₁⟩ := run_bind_ok h
  obtain ⟨order, t, hcheck, h₂⟩ := run_bind_ok h₁
  rw [run_check] at hcheck
  obtain ⟨horder, rfl⟩ := Prod.mk.inj hcheck
  obtain ⟨htext, rfl⟩ := Prod.mk.inj h₂
  have hemitted : emitted P = .ok order := by
    rw [emitted, context, run_bind_of_ok hqueue, run_check]
    exact horder
  have hp := generateQueue_progress (Loop.start_goes P) (Loop.start_roundsLeft P) hqueue
  exact ⟨sections, order, hqueue, hemitted, hp, horder, (Except.ok.inj htext).symm⟩

theorem generateComponents_ok {r : Registry} {text : String} (h : (run generateComponents r).1 = .ok text) :
    ∃ P sections order, run prepareProgram r = (.ok (), P) ∧ emitted P = .ok order ∧
      Progress P (context :: P.usedComponents) (maxWidth P) [] sections ∧
      sectionOrder sections.bases = .ok order ∧
      text = String.join (order.map fun name => (sections.code.get? name).getD "") := by
  have hrun := run_eq_of_ok h
  rw [generateComponents_eq] at hrun
  obtain ⟨_, P, hprep, hsections⟩ := run_bind_ok hrun
  obtain ⟨sections, order, -, hrest⟩ := generatePrepared_ok hsections
  exact ⟨P, sections, order, hprep, hrest⟩

def sectionOf (P : Registry) (name : String) : String :=
  match (sectionRun P name).1 with
  | .ok code => code
  | .error _ => ""

/-- The text of a program and its components, with `start` the registry before and `P` the prepared one. -/
structure Contains (start P : Registry) (text : String) (order : List String) : Prop where
  nodup : order.Nodup
  generated : ∀ name ∈ order, (sectionRun P name).1 = .ok (sectionOf P name)
  text_eq : text = String.join (order.map (sectionOf P))
  context_mem : context ∈ order
  used : ∀ name ∈ start.usedComponents, name = root ∨ name ∈ order
  requested : ∀ code ∈ start.imports.values, ∀ name ∈ requests code, name = root ∨ name ∈ order
  behind : ∀ front name back, order = front ++ name :: back →
    ∃ base, (baseRun P name).1 = .ok base ∧ (base = root ∨ base ∈ front)
  resolved : ∀ name ∈ order, ∀ other ∈ resolvedBy P name, other = root ∨ other ∈ order

theorem Progress.contains {start P : Registry} {sections : Sections} {order : List String} {width : Nat}
    (hprep : run prepareProgram start = (.ok (), P)) (hp : Progress P (context :: P.usedComponents) width [] sections)
    (ho : sectionOrder sections.bases = .ok order) :
    Contains start P (String.join (order.map fun name => (sections.code.get? name).getD "")) order := by
  obtain ⟨hplaced, hall⟩ := sectionOrder_placed ho
  have hin : ∀ name, sections.has name = true ∨ name ∈ [] → name = root ∨ name ∈ order := by
    intro name hn
    rcases (Sections.has_iff _ _).mp (hn.resolve_right (by simp)) with hroot | hkey
    · exact Or.inl hroot
    · exact hall name (hp.keys.symm ▸ hkey)
  have hcode : ∀ name ∈ order, ∃ code, sections.code.get? name = some code := fun name hn =>
    (Table.mem_keys_iff _ _).mp (hp.keys ▸ hplaced.known name hn)
  have hsection : ∀ name ∈ order, ∀ code, sections.code.get? name = some code →
      (sectionRun P name).1 = .ok (sectionOf P name) ∧ sectionOf P name = code := by
    intro name _ code hc
    have hrun := hp.code name code hc
    have hof : sectionOf P name = code := by rw [sectionOf, hrun]
    exact ⟨by rw [hof, hrun], hof⟩
  refine ⟨hplaced.nodup, fun name hn => ?_, ?_, ?_, fun name hn => ?_, fun code hc name hn => ?_, ?_, ?_⟩
  · obtain ⟨code, hc⟩ := hcode name hn
    exact (hsection name hn code hc).1
  · refine congrArg String.join (map_congr_left fun name hn => ?_)
    obtain ⟨code, hc⟩ := hcode name hn
    rw [hc, (hsection name hn code hc).2]
    rfl
  · exact (hin context (hp.wanted context mem_cons_self)).resolve_left (by decide)
  · have hused := prepareProgram_used hprep (.inl hn)
    exact hin name (hp.wanted name (mem_cons_of_mem _ hused))
  · have hused := prepareProgram_used hprep (.inr (mem_flatMap.mpr ⟨code, hc, hn⟩))
    exact hin name (hp.wanted name (mem_cons_of_mem _ hused))
  · intro front name back heq
    obtain ⟨base, hbase, hb⟩ := hplaced.behind front name back heq
    exact ⟨base, hp.base name base hbase, hb⟩
  · intro name hn other ho'
    exact hin other (hp.closed name (hp.keys ▸ hplaced.known name hn) other (.inl ho'))

/-- The components of a program are closed under everything that is used, and each stands behind its
base. -/
theorem generateComponents_contains {start : Registry} {text : String}
    (h : (run generateComponents start).1 = .ok text) :
    ∃ P order, run prepareProgram start = (.ok (), P) ∧ emitted P = .ok order ∧
      Contains start P text order := by
  obtain ⟨P, sections, order, hprep, hemitted, hp, ho, rfl⟩ := generateComponents_ok h
  exact ⟨P, order, hprep, hemitted, hp.contains hprep ho⟩

/-- An application with a child of another package, which has a base there, and a script that asks for a type. -/
def gallery : Registry :=
  (run (do
    addComponent "core.Context" (.component none "CoreObject" []) true
    addComponent "ui.Label" (.component none "Item" []) true
    addComponent "ui.Item" (.component none "CoreObject" [.signal none "pressed"]) true
    addComponent "ui.Timer" (.component none "CoreObject" []) true
    addComponent "app.main" (.component none "Item" [.component none "Label" []]) false
    addScript "app.script" "/* @using \x7b ui.Timer \x7d */") { ns := "qml", buildId := "1" }).2

set_option maxRecDepth 100000 in
theorem gallery_contains :
    ∃ text P, (run generateComponents gallery).1 = .ok text ∧ run prepareProgram gallery = (.ok (), P) ∧
      Contains gallery P text ["core.Context", "ui.Item", "app.UiMain", "ui.Timer", "ui.Label"] := by
  have horder : (emitted (run prepareProgram gallery).2).toOption =
      some ["core.Context", "ui.Item", "app.UiMain", "ui.Timer", "ui.Label"] := by decide +kernel
  obtain ⟨text, h⟩ : ∃ text, (run generateComponents gallery).1 = .ok text :=
    exists_of_isOk (by decide +kernel)
  obtain ⟨P, order, hprep, hemitted, hc⟩ := generateComponents_contains h
  rw [hprep, hemitted] at horder
  cases horder
  exact ⟨text, P, h, hprep, hc⟩

open List Table

variable {P : Registry} {wanted : List String} {width : Nat} {l next last : Loop} {event : Event} {events : List Event}

def Event.generated? : Event → Option String
  | .generated name => some name
  | _ => none

/-- The components with sections, in the order of the rounds. -/
def generatedNames (events : List Event) : List String := events.filterMap Event.generated?

/-- A round generates at most one section, of a component without one. -/
theorem Round.keys (h : Round l event next) (hl : l.Goes P wanted width) :
    next.sections.code.keys = l.sections.code.keys ++ event.generated?.toList ∧
      ∀ name ∈ event.generated?, name ∉ l.sections.code.keys := by
  cases h with
  | take hwaiting hrun =>
    obtain ⟨base, ht⟩ := hl.taken hrun
    rcases ht.code with ⟨hold, hcode, -⟩ | ⟨hnew, code, -, hcode, -⟩
    · rw [if_pos hold, hcode]
      exact ⟨(append_nil _).symm, by simp [Event.generated?]⟩
    · have hout := fun hmem => Bool.eq_false_iff.mp hnew ((Sections.has_iff _ _).mpr (.inr hmem))
      rw [if_neg (Bool.eq_false_iff.mp hnew), hcode, keys_insert, if_neg hout]
      refine ⟨rfl, fun name hname => ?_⟩
      cases hname
      exact hout
  | drop => exact ⟨(append_nil _).symm, by simp [Event.generated?]⟩

theorem Rounds.keys (h : Rounds l events last) (hl : l.Goes P wanted width) (hn : l.sections.code.keys.Nodup) :
    last.sections.code.keys = l.sections.code.keys ++ generatedNames events ∧ last.sections.code.keys.Nodup := by
  induction h with
  | nil l => exact ⟨(append_nil _).symm, hn⟩
  | @cons l next last event events h _ ih =>
    obtain ⟨hkeys, hout⟩ := h.keys hl
    have hnodup : next.sections.code.keys.Nodup := by
      rw [hkeys, nodup_append']
      refine ⟨hn, by cases event.generated? <;> simp, fun name hname hevent => hout name ?_ hname⟩
      exact Option.mem_toList.mp hevent
    obtain ⟨hlast, hnodup⟩ := ih (h.goes hl).1 hnodup
    refine ⟨?_, hnodup⟩
    rw [hlast, hkeys, append_assoc, generatedNames, generatedNames, filterMap_cons]
    cases event.generated? <;> rfl

/-- A component that is taken again keeps its section, and marks its base. -/
theorem Round.repeated {name : String} (h : Round l (.repeated name) next) (hl : l.Goes P wanted width) :
    name ∈ l.sections.code.keys ∧ next.sections.code = l.sections.code ∧
      ∃ base, (baseRun P name).1 = .ok base ∧ (base = root ∨ base ∈ next.registry.usedComponents) := by
  generalize hevent : Event.repeated name = event at h
  cases h with
  | take hwaiting hrun =>
    obtain ⟨base, ht⟩ := hl.taken hrun
    rcases ht.code with ⟨hold, hcode, -⟩ | ⟨hnew, -⟩
    · rw [if_pos hold] at hevent
      cases hevent
      have hroot : name ≠ root := fun hroot => hl.progress.rootless.2 (by rw [hwaiting, hroot]; exact mem_cons_self)
      exact ⟨((Sections.has_iff _ _).mp hold).resolve_left hroot, hcode, base, ht.base_eq, ht.base_used⟩
    · rw [if_neg (Bool.eq_false_iff.mp hnew)] at hevent
      cases hevent
  | drop => cases hevent

/-- The loop ends after finitely many rounds, and no section is generated twice. Every registry has a number
that no rounds exceed. A component may be taken again, which marks its base but leaves its section as it is. -/
theorem rounds_terminate (P : Registry) :
    (∀ events l, Rounds (.start P) events l →
      events.length ≤ roundBound P ∧ (generatedNames events).Nodup ∧ l.sections.code.keys = generatedNames events ∧
      ∀ name next, Round l (.repeated name) next → name ∈ generatedNames events ∧
        next.sections.code = l.sections.code ∧
        ∃ base, (baseRun P name).1 = .ok base ∧ (base = root ∨ base ∈ next.registry.usedComponents)) ∧
    ∀ bound, roundBound P ≤ bound →
      ∃ events l, Rounds (.start P) events l ∧ l.Stops (run (generateQueue bound [context] {}) P) := by
  refine ⟨fun events l h => ?_, fun bound hb => ?_⟩
  · obtain ⟨hl, hlength⟩ := h.goes (Loop.start_goes P)
    obtain ⟨hkeys, hnodup⟩ := h.keys (Loop.start_goes P) nodup_nil
    rw [show (Loop.start P).sections.code.keys = [] from rfl, nil_append] at hkeys
    refine ⟨?_, hkeys ▸ hnodup, hkeys, fun name next hnext => hkeys ▸ hnext.repeated hl⟩
    have hbound := Loop.start_roundsLeft P
    omega
  · exact exists_rounds bound (Loop.start_goes P) ((Loop.start_roundsLeft P).trans hb)

end QmlScript.Registry
