import QmlScript.Proofs.PlainTypes

/-!
# Registering components in another order

The registry that calls leave is known from the components that they register, as a set, and from the other
calls in their order. So another order gives the same program; but it may fail, as a component is refused if
its given name is the full name of one that is there.
-/

namespace QmlScript.Registry

open List Package Table

structure Addition where
  name : String
  tree : Tree
  declaration : Bool

namespace Addition

def package (a : Addition) : String := escapeSegments (splitName a.name).1

def localName (a : Addition) : String := (splitName a.name).2

/-- The full name of the component; an application needs a name. -/
def key? (a : Addition) : Option String :=
  if a.declaration then some (a.package ++ "." ++ a.localName) else applicationName? a.package a.localName

/-- Declare the component in its package, and start an application. -/
def announce (a : Addition) (key : String) (r : Registry) : Registry :=
  { r with
    usedComponents := if a.declaration then r.usedComponents else NameSet.add r.usedComponents key
    usedPackages := if a.declaration then r.usedPackages else NameSet.add r.usedPackages a.package
    startup := if a.declaration then r.startup else r.startup ++
      ["\tcontext.start(new qml." ++ key ++ "(context))", "\tcontext.run()"]
    packages := r.packages.insert a.package
      (NameSet.add ((r.packages.get? a.package).getD []) a.localName) }

/-- The registry with the component `c` registered under its full name. -/
def register (a : Addition) (key : String) (c : Component) (r : Registry) : Registry :=
  { a.announce key r with components := r.components.insert key c }

end Addition

inductive Call where
  | add (a : Addition)
  | script (name code : String)
  | scan (code : String)

namespace Call

def work : Call → Work Unit
  | .add a => addComponent a.name a.tree a.declaration
  | .script name code => addScript name code
  | .scan code => scanUsing code

def addition? : Call → Option Addition
  | .add a => some a
  | _ => none

end Call

def additions (calls : List Call) : List Addition := calls.filterMap Call.addition?

def otherCalls (calls : List Call) : List Call := calls.filter fun call => call.addition?.isNone

theorem additions_cons (call : Call) (calls : List Call) :
    additions (call :: calls) = additions [call] ++ additions calls :=
  filterMap_append (l := [call])

theorem otherCalls_cons (call : Call) (calls : List Call) :
    otherCalls (call :: calls) = otherCalls [call] ++ otherCalls calls :=
  filter_append [call] calls

/-- The registry after calls. A call that fails leaves what it did. -/
def after (calls : List Call) (r : Registry) : Registry :=
  calls.foldl (fun r call => (run call.work r).2) r

def allRegistered : List Call → Registry → Bool
  | [], _ => true
  | call :: calls, r =>
    (call.addition?.isNone || (run call.work r).1.isOk) && allRegistered calls (run call.work r).2

theorem run_declare (package name key : String) (tree : Tree) (r : Registry) :
    run (do
      modify fun r => { r with
        packages := r.packages.insert package (NameSet.add ((r.packages.get? package).getD []) name) }
      let c ← check (Component.build key true tree)
      modify fun r => { r with components := r.components.insert key c }) r =
    match Component.build key true tree with
    | .error e => (.error e, { r with
        packages := r.packages.insert package (NameSet.add ((r.packages.get? package).getD []) name) })
    | .ok c => (.ok (), { r with
        packages := r.packages.insert package (NameSet.add ((r.packages.get? package).getD []) name)
        components := r.components.insert key c }) := by
  rw [run_bind, run_modify]
  dsimp only
  rw [run_bind, run_check]
  cases Component.build key true tree <;> rfl

theorem run_add (a : Addition) (r : Registry) :
    run (Call.add a).work r =
      if r.components.contains a.name then (.error (.duplicateComponent a.name), r)
      else
        match a.key? with
        | none => (.error .emptyName, r)
        | some key =>
          match Component.build key true a.tree with
          | .error e => (.error e, a.announce key r)
          | .ok c => (.ok (), a.register key c r) := by
  show run (addComponent a.name a.tree a.declaration) r = _
  unfold addComponent
  rw [run_bind, run_get]
  dsimp only
  by_cases hcontains : r.components.contains a.name = true
  · rw [if_pos hcontains, if_pos hcontains, run_bind, run_throw]
  rw [if_neg hcontains, if_neg hcontains]
  cases hdecl : a.declaration with
  | true =>
    have hkey : a.key? = some (a.package ++ "." ++ a.localName) := by rw [Addition.key?, if_pos hdecl]
    rw [if_pos rfl, pure_bind, hkey]
    refine (run_declare a.package a.localName _ a.tree r).trans ?_
    simp only [Addition.register, Addition.announce, hdecl, if_true]
    rfl
  | false =>
    have hkey : applicationName? (escapeSegments (splitName a.name).1) (splitName a.name).2 = a.key? := by
      rw [Addition.key?, if_neg (by simp [hdecl])]
      rfl
    rw [if_neg (by simp), hkey]
    cases a.key? with
    | none =>
      dsimp only
      rw [run_bind, run_throw]
    | some key =>
      dsimp only
      rw [run_bind, run_modify]
      dsimp only
      rw [pure_bind]
      refine (run_declare a.package a.localName _ a.tree _).trans ?_
      simp [Addition.register, Addition.announce, hdecl, Addition.package]

theorem run_add_ok_iff (a : Addition) (r r' : Registry) :
    run (Call.add a).work r = (.ok (), r') ↔ r.components.contains a.name = false ∧
      ∃ key c, a.key? = some key ∧ Component.build key true a.tree = .ok c ∧ r' = a.register key c r := by
  rw [run_add]
  by_cases hcontains : r.components.contains a.name = true
  · simp [hcontains]
  rw [if_neg hcontains]
  simp only [Bool.not_eq_true] at hcontains
  cases a.key? with
  | none => simp
  | some key =>
    cases hbuild : Component.build key true a.tree with
    | error e => simp [hbuild]
    | ok c => simp [hcontains, hbuild, eq_comm]

/-- What a call can do to a registry, also if it fails. -/
inductive Call.Leaves (r : Registry) : Call → Registry → Prop
  | same (call : Call) : Leaves r call r
  | announced {a : Addition} {key : String} (hkey : a.key? = some key) : Leaves r (.add a) (a.announce key r)
  | registered {a : Addition} {key : String} {c : Component} (hname : a.name ∉ r.components.keys)
      (hkey : a.key? = some key) (hbuild : Component.build key true a.tree = .ok c) :
      Leaves r (.add a) (a.register key c r)
  | imported (name code : String) : Leaves r (.script name code) { r with imports := r.imports.insert name code }
  | scanned (code : String) : Leaves r (.scan code) ((requests code).foldl request r)

theorem Call.leaves {call : Call} {r s : Registry} (h : (run call.work r).2 = s) : call.Leaves r s := by
  subst h
  cases call with
  | add a =>
    rw [run_add]
    split
    · exact .same _
    · rename_i hname
      cases hkey : a.key? with
      | none => exact .same _
      | some key =>
        dsimp only
        cases hbuild : Component.build key true a.tree with
        | error e => exact .announced hkey
        | ok c => exact .registered (fun hmem => hname ((Table.contains_iff _ _).mpr hmem)) hkey hbuild
  | script name code =>
    rw [Call.work, addScript, run_bind, run_get]
    dsimp only
    split
    · exact .same _
    · exact .imported name code
  | scan code =>
    rw [Call.work, run_scanUsing]
    exact .scanned code

/-! ## What calls leave -/

def addScriptTo (scripts : Table String String) : Call → Table String String
  | .script name code => if scripts.contains name then scripts else scripts.insert name code
  | _ => scripts

def Call.requests : Call → List String
  | .scan code => Registry.requests code
  | _ => []

/-- A registry filled by calls; of the order of registering components only that of the tables is left. -/
structure Built (ns buildId : String) (added : List Addition) (others : List Call) (r : Registry) :
    Prop where
  ns : r.ns = ns
  buildId : r.buildId = buildId
  ids : r.ids = ["context", "model"]
  imports : r.imports = others.foldl addScriptTo {}
  keys : r.components.keys.map some = added.map Addition.key?
  component : ∀ a ∈ added, ∃ key c, a.key? = some key ∧ Component.build key true a.tree = .ok c ∧
    r.components.get? key = some c
  packages_nodup : r.packages.keys.Nodup
  package_keys : ∀ package, package ∈ r.packages.keys ↔ ∃ a ∈ added, a.package = package
  package_names : ∀ package names, r.packages.get? package = some names → NameSet.Ordered names ∧
    ∀ name, name ∈ names ↔ ∃ a ∈ added, a.package = package ∧ a.localName = name
  usedComponents_ordered : NameSet.Ordered r.usedComponents
  usedComponents : ∀ name, name ∈ r.usedComponents ↔
    (∃ a ∈ added, a.declaration = false ∧ a.key? = some name) ∨ name ∈ others.flatMap Call.requests
  usedPackages_ordered : NameSet.Ordered r.usedPackages
  usedPackages : ∀ package, package ∈ r.usedPackages ↔
    (∃ a ∈ added, a.declaration = false ∧ a.package = package) ∨
      ∃ name ∈ others.flatMap Call.requests, escapeSegments (ofName name) = package

def fresh (ns buildId : String) : Registry := { ns, buildId }

theorem built_fresh (ns buildId : String) : Built ns buildId [] [] (fresh ns buildId) where
  ns := rfl
  buildId := rfl
  ids := rfl
  imports := rfl
  keys := rfl
  component := by simp
  packages_nodup := nodup_nil
  package_keys := by simp [fresh, Table.keys]
  package_names := by simp [fresh, Table.get?, Table.lookup]
  usedComponents_ordered := List.Pairwise.nil
  usedComponents := by simp [fresh]
  usedPackages_ordered := List.Pairwise.nil
  usedPackages := by simp [fresh]

theorem mem_add_unless {names : NameSet} {known : Bool} {name other : String} :
    other ∈ (if known then names else NameSet.add names name) ↔ other ∈ names ∨ known = false ∧ name = other := by
  cases known <;> simp [NameSet.mem_add, or_comm, eq_comm]

theorem ordered_add_unless {names : NameSet} (h : NameSet.Ordered names) (known : Bool) (name : String) :
    NameSet.Ordered (if known then names else NameSet.add names name) := by
  split
  · exact h
  · exact h.add name

section Built

variable {ns buildId : String} {added : List Addition} {others : List Call} {r : Registry}

section

variable (h : Built ns buildId added others r)
include h

theorem Built.mem_keys (key : String) : key ∈ r.components.keys ↔ ∃ a ∈ added, a.key? = some key := by
  rw [← mem_map (f := Addition.key?), ← h.keys, mem_map]
  simp

theorem Built.mem_names (package name : String) :
    name ∈ (r.packages.get? package).getD [] ↔ ∃ a ∈ added, a.package = package ∧ a.localName = name := by
  cases hget : r.packages.get? package with
  | some names => exact (h.package_names package names hget).2 name
  | none =>
    have hnone := (get?_eq_none_iff _ _).mp hget
    rw [h.package_keys] at hnone
    constructor
    · intro hname
      simp at hname
    · rintro ⟨a, ha, hpackage, _⟩
      exact absurd ⟨a, ha, hpackage⟩ hnone

theorem Built.ordered_names (package : String) : NameSet.Ordered ((r.packages.get? package).getD []) := by
  cases hget : r.packages.get? package with
  | some names => exact (h.package_names package names hget).1
  | none => exact List.Pairwise.nil

theorem Built.register {a : Addition} {key : String} {c : Component}
    (hkey : a.key? = some key) (hbuild : Component.build key true a.tree = .ok c)
    (hnew : some key ∉ added.map Addition.key?) :
    Built ns buildId (added ++ [a]) others (a.register key c r) := by
  have hfresh : key ∉ r.components.keys := by
    rw [← h.keys] at hnew
    exact fun hmem => hnew (mem_map_of_mem hmem)
  have hmember : ∀ p : Addition → Prop, (∃ b ∈ added ++ [a], p b) ↔ (∃ b ∈ added, p b) ∨ p a := by
    intro p
    simp [or_and_right, exists_or]
  refine ⟨h.ns, h.buildId, h.ids, h.imports, ?_, ?_, nodup_keys_insert h.packages_nodup _ _,
    fun package => ?_, fun package names hget => ?_, ordered_add_unless h.usedComponents_ordered _ _, fun name => ?_,
    ordered_add_unless h.usedPackages_ordered _ _, fun package => ?_⟩
  · have hkeys : (a.register key c r).components.keys = r.components.keys ++ [key] := by
      rw [Addition.register, keys_insert, if_neg hfresh]
    rw [hkeys, map_append, map_append, h.keys, map_singleton, map_singleton, hkey]
  · intro b hb
    rcases mem_append.mp hb with hb | hb
    · obtain ⟨other, d, hother, hd, hget⟩ := h.component b hb
      have hne : key ≠ other := fun heq => hfresh (heq ▸ (mem_keys_iff _ _).mpr ⟨d, hget⟩)
      exact ⟨other, d, hother, hd, by rw [Addition.register, get?_insert, if_neg hne, hget]⟩
    · obtain rfl := mem_singleton.mp hb
      exact ⟨key, c, hkey, hbuild, by rw [Addition.register, get?_insert, if_pos rfl]⟩
  · rw [hmember, Addition.register, Addition.announce, mem_keys_insert, h.package_keys, or_comm, eq_comm]
  · rw [Addition.register, Addition.announce, get?_insert] at hget
    split at hget
    · rename_i hpackage
      obtain rfl := Option.some.inj hget
      refine ⟨(h.ordered_names _).add _, fun name => ?_⟩
      rw [NameSet.mem_add, h.mem_names, hmember, or_comm, hpackage, eq_comm]
      simp
    · rename_i hpackage
      obtain ⟨hordered, hnames⟩ := h.package_names package names hget
      refine ⟨hordered, fun name => ?_⟩
      rw [hnames, hmember]
      simp [hpackage]
  · rw [hmember, Addition.register, Addition.announce, mem_add_unless, h.usedComponents, hkey, Option.some.injEq]
    exact or_right_comm
  · rw [hmember, Addition.register, Addition.announce, mem_add_unless, h.usedPackages]
    exact or_right_comm

end

theorem mem_usedPackages_requests (names : List String) (r : Registry) (package : String) :
    package ∈ (names.foldl request r).usedPackages ↔
      (∃ name ∈ names, escapeSegments (ofName name) = package) ∨ package ∈ r.usedPackages := by
  induction names generalizing r with
  | nil => simp
  | cons name names ih =>
    rw [foldl_cons, ih]
    simp only [request, usePackage, use, NameSet.mem_add, exists_mem_cons_iff, eq_comm (a := package)]
    exact or_left_comm.trans or_assoc.symm

theorem foldl_request_rest (names : List String) (r : Registry) :
    names.foldl request r = { r with
      usedComponents := (names.foldl request r).usedComponents
      usedPackages := (names.foldl request r).usedPackages } := by
  induction names generalizing r with
  | nil => rfl
  | cons name names ih => rw [foldl_cons, ih]; rfl

theorem ordered_requests (names : List String) {r : Registry} (hc : NameSet.Ordered r.usedComponents)
    (hp : NameSet.Ordered r.usedPackages) :
    NameSet.Ordered (names.foldl request r).usedComponents ∧ NameSet.Ordered (names.foldl request r).usedPackages := by
  induction names generalizing r with
  | nil => exact ⟨hc, hp⟩
  | cons name names ih => exact ih (hc.add _) (hp.add _)

theorem Built.scan (h : Built ns buildId added others r) (code : String) :
    Built ns buildId added (others ++ [.scan code]) ((requests code).foldl request r) := by
  obtain ⟨hcomponents, hpackages⟩ :=
    ordered_requests (requests code) h.usedComponents_ordered h.usedPackages_ordered
  have hscan : ∀ name, name ∈ (others ++ [Call.scan code]).flatMap Call.requests ↔
      name ∈ others.flatMap Call.requests ∨ name ∈ requests code := by
    intro name
    simp [Call.requests]
  rw [foldl_request_rest]
  refine { h with
    imports := ?_, usedComponents_ordered := hcomponents, usedComponents := fun name => ?_
    usedPackages_ordered := hpackages, usedPackages := fun package => ?_ }
  · rw [foldl_append]
    exact h.imports
  · rw [mem_used_requests, h.usedComponents, hscan, or_comm, or_assoc]
  · rw [mem_usedPackages_requests, h.usedPackages]
    simp only [hscan, or_and_right, exists_or]
    rw [or_comm, or_assoc]

theorem Built.script (h : Built ns buildId added others r) (name code : String) :
    Built ns buildId added (others ++ [.script name code]) (run (addScript name code) r).2 := by
  have hrun : (run (addScript name code) r).2 = { r with imports := addScriptTo r.imports (.script name code) } := by
    unfold addScript addScriptTo
    rw [run_bind, run_get]
    dsimp only
    split
    · rfl
    · rfl
  have hscan : (others ++ [Call.script name code]).flatMap Call.requests = others.flatMap Call.requests := by
    simp [Call.requests]
  rw [hrun]
  refine { h with imports := ?_, usedComponents := ?_, usedPackages := ?_ }
  · rw [foldl_append, ← h.imports]
    rfl
  · rw [hscan]; exact h.usedComponents
  · rw [hscan]; exact h.usedPackages

/-- A component can be registered in a registry that has none of its name. -/
def Buildable (a : Addition) : Prop :=
  ∃ key c, a.key? = some key ∧ Component.build key true a.tree = .ok c

theorem Built.buildable (h : Built ns buildId added others r) {a : Addition} (ha : a ∈ added) : Buildable a := by
  obtain ⟨key, c, hkey, hbuild, _⟩ := h.component a ha
  exact ⟨key, c, hkey, hbuild⟩

/-- A call that registers its component leaves what it should. -/
theorem Built.step (h : Built ns buildId added others r) {call : Call}
    (hok : (call.addition?.isNone || (run call.work r).1.isOk) = true)
    (hkeys : ((added ++ additions [call]).map Addition.key?).Nodup) :
    Built ns buildId (added ++ additions [call]) (others ++ otherCalls [call]) (run call.work r).2 := by
  cases call with
  | add a =>
    obtain ⟨_, hrun⟩ : ∃ u, (run (Call.add a).work r).1 = .ok u := exists_of_isOk hok
    obtain ⟨_, key, c, hkey, hbuild, hr⟩ := (run_add_ok_iff a r _).mp (Prod.ext hrun rfl)
    rw [map_append, nodup_append] at hkeys
    have hregister := h.register hkey hbuild fun hmem => hkeys.2.2 _ hmem _ (mem_singleton.mpr hkey.symm) rfl
    rw [show (run (Call.add a).work r).2 = _ from hr]
    exact (append_nil others).symm ▸ hregister
  | script name code => exact (append_nil added).symm ▸ h.script name code
  | scan code =>
    rw [Call.work, run_scanUsing]
    exact (append_nil added).symm ▸ h.scan code

/-- Calls that register all components leave what they should, by induction. -/
theorem Built.after (calls : List Call) (h : Built ns buildId added others r)
    (hok : allRegistered calls r = true) (hkeys : ((added ++ additions calls).map Addition.key?).Nodup) :
    Built ns buildId (added ++ additions calls) (others ++ otherCalls calls) (Registry.after calls r) := by
  induction calls generalizing added others r with
  | nil => simpa [additions, otherCalls, Registry.after] using h
  | cons call calls ih =>
    rw [allRegistered, Bool.and_eq_true] at hok
    rw [additions_cons, ← append_assoc] at hkeys ⊢
    rw [otherCalls_cons, ← append_assoc]
    exact ih (h.step hok.1 (hkeys.sublist ((sublist_append_left _ _).map _))) hok.2 hkeys

theorem Built.registers_iff (h : Built ns buildId added others r) {call : Call}
    (hbuildable : ∀ a ∈ additions [call], Buildable a) (hadded : added.Pairwise fun b a => b.key? ≠ some a.name) :
    (call.addition?.isNone || (run call.work r).1.isOk) = true ↔
      (added ++ additions [call]).Pairwise fun b a => b.key? ≠ some a.name := by
  cases call with
  | add a =>
    obtain ⟨key, c, hkey, hbuild⟩ := hbuildable a mem_cons_self
    have hpairs : (added ++ [a]).Pairwise (fun b a => b.key? ≠ some a.name) ↔ a.name ∉ r.components.keys := by
      simp [pairwise_append, hadded, h.mem_keys]
    rw [show added ++ additions [.add a] = added ++ [a] from rfl, hpairs, ← Table.contains_iff, run_add, hkey]
    dsimp only
    rw [hbuild]
    split <;> simp [Call.addition?, Except.isOk, Except.toBool, *]
  | script name code | scan code => simpa [additions, filterMap_cons, Call.addition?] using hadded

/-- All components are registered exactly if none is given the full name of an earlier one. -/
theorem Built.allRegistered_iff (calls : List Call) (h : Built ns buildId added others r)
    (hbuildable : ∀ a ∈ additions calls, Buildable a) (hkeys : ((added ++ additions calls).map Addition.key?).Nodup)
    (hadded : added.Pairwise fun b a => b.key? ≠ some a.name) :
    allRegistered calls r = true ↔ (added ++ additions calls).Pairwise fun b a => b.key? ≠ some a.name := by
  induction calls generalizing added others r with
  | nil => simpa [additions, allRegistered] using hadded
  | cons call calls ih =>
    rw [additions_cons, ← append_assoc] at hkeys ⊢
    simp only [additions_cons call calls, mem_append, or_imp, forall_and] at hbuildable
    have hfirst := h.registers_iff hbuildable.1 hadded
    have hrest := fun hok => ih (h.step hok (hkeys.sublist ((sublist_append_left _ _).map _))) hbuildable.2 hkeys
      (hfirst.mp hok)
    rw [allRegistered, Bool.and_eq_true]
    constructor
    · exact fun hall => (hrest hall.1).mp hall.2
    · intro hall
      have hok := hfirst.mpr (pairwise_append.mp hall).1
      exact ⟨hok, (hrest hok).mpr hall⟩

theorem Built.reordered {added' : List Addition} {s : Registry} (h : Built ns buildId added others r)
    (h' : Built ns buildId added' others s) (hperm : added.Perm added')
    (hkeys : (added.map Addition.key?).Nodup) : Reordered r s := by
  have hmem : ∀ p : Addition → Prop, (∃ a ∈ added, p a) ↔ ∃ a ∈ added', p a := by
    intro p
    simp only [hperm.mem_iff]
  have hinj : Function.Injective (some : String → Option String) := Option.some_injective _
  refine ⟨h.ns.trans h'.ns.symm, h.buildId.trans h'.buildId.symm, ⟨?_, ?_, fun name => ?_⟩,
    ⟨?_, ?_, fun name => ?_⟩, ?_, ?_, h.imports.trans h'.imports.symm, h.ids.trans h'.ids.symm, ?_⟩
  · rw [← nodup_map_iff hinj, h.keys]
    exact hkeys
  · rw [← map_perm_map_iff hinj, h.keys, h'.keys]
    exact hperm.map _
  · by_cases hname : name ∈ r.components.keys
    · obtain ⟨a, ha, hkey⟩ := (h.mem_keys name).mp hname
      obtain ⟨_, c, hk, hbuild, hget⟩ := h.component a ha
      obtain ⟨_, c', hk', hbuild', hget'⟩ := h'.component a (hperm.mem_iff.mp ha)
      obtain rfl := Option.some.inj (hk.symm.trans hkey)
      obtain rfl := Option.some.inj (hk'.symm.trans hkey)
      obtain rfl := Except.ok.inj (hbuild.symm.trans hbuild')
      rw [hget, hget']
    · have hname' : name ∉ s.components.keys := by rwa [h'.mem_keys, ← hmem, ← h.mem_keys]
      rw [(get?_eq_none_iff _ _).mpr hname, (get?_eq_none_iff _ _).mpr hname']
  · exact h.packages_nodup
  · refine (perm_ext_iff_of_nodup h.packages_nodup h'.packages_nodup).mpr fun package => ?_
    rw [h.package_keys, h'.package_keys, hmem]
  · by_cases hname : name ∈ r.packages.keys
    · have hname' : name ∈ s.packages.keys := by rwa [h'.package_keys, ← hmem, ← h.package_keys]
      obtain ⟨names, hget⟩ := (mem_keys_iff _ _).mp hname
      obtain ⟨names', hget'⟩ := (mem_keys_iff _ _).mp hname'
      obtain ⟨hordered, hnames⟩ := h.package_names name names hget
      obtain ⟨hordered', hnames'⟩ := h'.package_names name names' hget'
      rw [hget, hget', hordered.ext hordered' fun other => by rw [hnames, hnames', hmem]]
    · have hname' : name ∉ s.packages.keys := by rwa [h'.package_keys, ← hmem, ← h.package_keys]
      rw [(get?_eq_none_iff _ _).mpr hname, (get?_eq_none_iff _ _).mpr hname']
  · refine h.usedComponents_ordered.ext h'.usedComponents_ordered fun name => ?_
    rw [h.usedComponents, h'.usedComponents, hmem]
  · refine h.usedPackages_ordered.ext h'.usedPackages_ordered fun package => ?_
    rw [h.usedPackages, h'.usedPackages, hmem]
  · rw [h.ids]
    exact pairwise_pair.mpr (by decide)

end Built

/-! ## The same program -/

/-- Components may be registered in another order. The calls succeed in the new order exactly if no given
name is the full name of a component that is registered earlier, and then the program is the same. -/
theorem generate_after_permuted (ns buildId : String) {calls calls' : List Call}
    (hok : allRegistered calls (fresh ns buildId) = true)
    (hkeys : ((additions calls).map Addition.key?).Nodup)
    (hperm : (additions calls).Perm (additions calls')) (hothers : otherCalls calls = otherCalls calls') :
    (allRegistered calls' (fresh ns buildId) = true ↔
      (additions calls').Pairwise fun earlier later => earlier.key? ≠ some later.name) ∧
    (allRegistered calls' (fresh ns buildId) = true → ∀ text,
      (run generate (after calls (fresh ns buildId))).1 = .ok text ↔
        (run generate (after calls' (fresh ns buildId))).1 = .ok text) := by
  have hkeys' : ((additions calls').map Addition.key?).Nodup := (hperm.map _).nodup_iff.mp hkeys
  have hbuilt : Built ns buildId (additions calls) (otherCalls calls) (after calls (fresh ns buildId)) :=
    (built_fresh ns buildId).after calls hok hkeys
  have hbuildable : ∀ a ∈ additions calls', Buildable a :=
    fun a ha => hbuilt.buildable (hperm.mem_iff.mpr ha)
  refine ⟨?_, fun hok' text => ?_⟩
  · exact (built_fresh ns buildId).allRegistered_iff calls' hbuildable hkeys' .nil
  · have hbuilt' := (built_fresh ns buildId).after calls' hok' hkeys'
    rw [nil_append, nil_append, ← hothers] at hbuilt'
    have hreordered := hbuilt.reordered hbuilt' hperm hkeys
    exact ⟨generate_of_reordered hreordered, generate_of_reordered hreordered.symm⟩

def declare (name base : String) : Call := .add ⟨name, .component none base [], true⟩

def start (name base : String) : Call := .add ⟨name, .component none base [], false⟩

def typeFirst : List Call :=
  [declare "ui.Item" "CoreObject", .scan "@using \x7b ui.Item \x7d", start "app.main" "Item",
    declare "core.Context" "CoreObject"]

def typeLast : List Call :=
  [declare "core.Context" "CoreObject", start "app.main" "Item", .scan "@using \x7b ui.Item \x7d",
    declare "ui.Item" "CoreObject"]

theorem additions_typeLast : (additions typeFirst).Perm (additions typeLast) := by
  have hreverse : additions typeLast = (additions typeFirst).reverse := rfl
  rw [hreverse]
  exact (reverse_perm _).symm

set_option maxRecDepth 100000

theorem generate_typeLast :
    allRegistered typeFirst (fresh "qml" "1") = true ∧ allRegistered typeLast (fresh "qml" "1") = true ∧
      ∀ text, (run generate (after typeFirst (fresh "qml" "1"))).1 = .ok text ↔
        (run generate (after typeLast (fresh "qml" "1"))).1 = .ok text := by
  have hok : allRegistered typeFirst (fresh "qml" "1") = true := by decide +kernel
  have hok' : allRegistered typeLast (fresh "qml" "1") = true := by decide +kernel
  have hkeys : ((additions typeFirst).map Addition.key?).Nodup := by decide +kernel
  exact ⟨hok, hok', (generate_after_permuted "qml" "1" hok hkeys additions_typeLast rfl).2 hok'⟩

/-- An application and a type of one given name, and a script that asks for the application. -/
def applicationThenType : List Call :=
  [declare "core.Context" "CoreObject", start "a.foo" "CoreObject", declare "a.foo" "CoreObject",
    .scan "@using \x7b a.UiFoo \x7d"]

/-- The type comes first, so that the name of the application is taken. -/
def typeThenApplication : List Call :=
  [declare "core.Context" "CoreObject", declare "a.foo" "CoreObject", start "a.foo" "CoreObject",
    .scan "@using \x7b a.UiFoo \x7d"]

theorem packagesFree_a_core : PackagesFree ["a", "core"] := by
  have ha : splitText '.' "a" = ["a"] := by decide
  have hcore : splitText '.' "core" = ["core"] := by decide
  have hafull : escapeSegments "_globals.a" = "_globals.a" := by decide +kernel
  have hcorefull : escapeSegments "_globals.core" = "_globals.core" := by decide +kernel
  simp [PackagesFree, PackageTree.ofPackages, PackageTree.add, PackageTree.addTo, PackageTree.lines,
    PackageTree.linesOf, ha, hcore, hafull, hcorefull, bind, Except.bind, pure, Except.pure]
  decide +kernel

/-- In the second order the application is refused, and the program fails without it. -/
theorem typeThenApplication_fails :
    allRegistered applicationThenType (fresh "qml" "1") = true ∧
      ((additions applicationThenType).map Addition.key?).Nodup ∧
      (additions applicationThenType).Perm (additions typeThenApplication) ∧
      otherCalls applicationThenType = otherCalls typeThenApplication ∧
      (run generate (after applicationThenType (fresh "qml" "1"))).1.isOk = true ∧
      (run generate (after typeThenApplication (fresh "qml" "1"))).1.isOk = false := by
  have hsections : (run generateComponents (after applicationThenType (fresh "qml" "1"))).1.isOk = true := by
    decide +kernel
  have horder : (emitted (run prepareProgram (after applicationThenType (fresh "qml" "1"))).2).toOption =
      some ["core.Context", "a.UiFoo"] := by decide +kernel
  have hplain : ∀ name ∈ ["core.Context", "a.UiFoo"],
      isFreePlain (run prepareProgram (after applicationThenType (fresh "qml" "1"))).2 name = true := by
    decide +kernel
  have hns : MacroFree (run generateComponents (after applicationThenType (fresh "qml" "1"))).2.ns := by
    decide +kernel
  have himports : (run generateComponents
      (after applicationThenType (fresh "qml" "1"))).2.imports.entries.isEmpty = true := by
    decide +kernel
  have hpackages : (run generateComponents (after applicationThenType (fresh "qml" "1"))).2.usedPackages =
      ["a", "core"] := by decide +kernel
  refine ⟨by decide +kernel, by decide +kernel, (List.Perm.swap _ _ _).cons _, rfl, ?_, by decide +kernel⟩
  cases hemitted : emitted (run prepareProgram (after applicationThenType (fresh "qml" "1"))).2 with
  | error e => simp [hemitted, Except.toOption] at horder
  | ok order =>
    rw [hemitted] at horder
    obtain rfl := Option.some.inj horder
    refine generate_plain hsections rfl hemitted hplain hns (List.isEmpty_iff.mp himports) ?_
    rw [hpackages]
    exact packagesFree_a_core

end QmlScript.Registry
