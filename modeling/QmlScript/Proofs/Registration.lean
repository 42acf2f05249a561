import QmlScript.Proofs.Calls
import QmlScript.Proofs.DottedNames

/-!
# Registered components

The full name of a component is made from the name that is given, but it is the given name that must be new.
So a component is lost exactly if another one is registered under its full name with a given name that no
component has.
-/

namespace QmlScript.Registry

open List Package Table

variable {a : Addition} {r : Registry} {tried : List Addition}

/-- Registering replaces the component of that full name, since the given name is new. -/
def Overwrites (a : Addition) (r : Registry) (key : String) : Prop :=
  a.key? = some key ∧ key ∈ r.components.keys ∧ a.name ∉ r.components.keys ∧
    ∃ c, Component.build key true a.tree = .ok c

/-- A registration that loses nothing: it failed, or there is one component more. -/
def KeepsAll (r : Registry) (outcome : Except Error Unit × Registry) : Prop :=
  match outcome.1 with
  | .error _ => outcome.2.components = r.components
  | .ok () => ∃ key c, key ∉ r.components.keys ∧ outcome.2.components.keys = r.components.keys ++ [key] ∧
      outcome.2.components.get? key = some c ∧
      ∀ other ∈ r.components.keys, outcome.2.components.get? other = r.components.get? other

theorem run_add_of_mem (h : a.name ∈ r.components.keys) :
    run (Call.add a).work r = (.error (.duplicateComponent a.name), r) := by
  rw [run_add, if_pos ((Table.contains_iff _ _).mpr h)]

theorem run_add_of_not_mem (h : a.name ∉ r.components.keys) :
    run (Call.add a).work r =
      match a.key? with
      | none => (.error .emptyName, r)
      | some key =>
        match Component.build key true a.tree with
        | .error e => (.error e, a.announce key r)
        | .ok c => (.ok (), a.register key c r) :=
  (run_add a r).trans (if_neg fun hc => h ((Table.contains_iff _ _).mp hc))

theorem keepsAll_iff (a : Addition) (r : Registry) :
    KeepsAll r (run (Call.add a).work r) ↔ ∀ key, ¬ Overwrites a r key := by
  by_cases hname : a.name ∈ r.components.keys
  · rw [run_add_of_mem hname]
    exact iff_of_true rfl fun key h => h.2.2.1 hname
  rw [run_add_of_not_mem hname]
  cases hkey : a.key? with
  | none => exact iff_of_true rfl fun key h => absurd h.1 (by simp [hkey])
  | some key =>
    dsimp only
    cases hbuild : Component.build key true a.tree with
    | error e =>
      refine iff_of_true rfl fun other ⟨hother, _, _, c, hc⟩ => ?_
      obtain rfl := Option.some.inj (hkey.symm.trans hother)
      rw [hbuild] at hc
      cases hc
    | ok c =>
      by_cases htaken : key ∈ r.components.keys
      · refine iff_of_false ?_ fun h => h key ⟨hkey, htaken, hname, c, hbuild⟩
        rintro ⟨new, _, _, hkeys, _⟩
        have hsame : (a.register key c r).components.keys = r.components.keys :=
          keys_insert_of_mem htaken c
        rw [hsame] at hkeys
        exact absurd (congrArg List.length hkeys) (by simp)
      · refine iff_of_true ⟨key, c, htaken, ?_, get?_insert_self _ _ _, fun other hother => ?_⟩ ?_
        · show (r.components.insert key c).keys = _
          rw [keys_insert, if_neg htaken]
        · exact get?_insert_of_ne _ _ fun heq => htaken (heq ▸ hother)
        · rintro other ⟨hother, hmem, -⟩
          obtain rfl := Option.some.inj (hkey.symm.trans hother)
          exact htaken hmem

theorem kept_or_overwritten_of_call (call : Call) {key : String} {c : Component} (h : r.components.get? key = some c) :
    (run call.work r).2.components.get? key = some c ∨ ∃ a, call = .add a ∧ Overwrites a r key := by
  generalize hs : (run call.work r).2 = s
  cases Call.leaves hs with
  | same | announced => exact .inl h
  | @registered a new d hname hkey hbuild =>
    by_cases hnew : new = key
    · have htaken : key ∈ r.components.keys := (mem_keys_iff _ _).mpr ⟨c, h⟩
      exact .inr ⟨a, rfl, hnew ▸ hkey, htaken, hname, d, hnew ▸ hbuild⟩
    · exact .inl ((get?_insert_of_ne _ _ hnew).trans h)
  | imported => exact .inl h
  | scanned =>
    rw [foldl_request_rest]
    exact .inl h

theorem kept_or_overwritten (calls : List Call) {key : String} {c : Component} (h : r.components.get? key = some c) :
    (after calls r).components.get? key = some c ∨
      ∃ front a back, calls = front ++ .add a :: back ∧ Overwrites a (after front r) key := by
  induction calls generalizing r with
  | nil => exact .inl h
  | cons call calls ih =>
    rcases kept_or_overwritten_of_call call h with hkept | ⟨a, rfl, hover⟩
    · rcases ih hkept with hrest | ⟨front, a, back, rfl, hover⟩
      · exact .inl hrest
      · exact .inr ⟨call :: front, a, back, rfl, hover⟩
    · exact .inr ⟨[], a, calls, rfl, hover⟩

/-- Registering a component loses one exactly if it overwrites it. A given name that is registered is
refused, a component whose full name is the given one overwrites nothing, and a component that is gone
after some calls was overwritten by one of them. -/
theorem addComponent_keepsAll_iff (a : Addition) (r : Registry) :
    (KeepsAll r (run (addComponent a.name a.tree a.declaration) r) ↔ ∀ key, ¬ Overwrites a r key) ∧
    (a.name ∈ r.components.keys →
      run (addComponent a.name a.tree a.declaration) r = (.error (.duplicateComponent a.name), r)) ∧
    (a.key? = some a.name → ∀ key, ¬ Overwrites a r key) ∧
    ∀ calls key c, r.components.get? key = some c →
      (after calls r).components.get? key = some c ∨
        ∃ front b back, calls = front ++ .add b :: back ∧ Overwrites b (after front r) key := by
  refine ⟨keepsAll_iff a r, run_add_of_mem, fun hself key h => ?_, fun calls key c h =>
    kept_or_overwritten calls h⟩
  obtain rfl := Option.some.inj (hself.symm.trans h.1)
  exact h.2.2.1 h.2.1

set_option maxRecDepth 100000

/-- A second type of a package loses nothing, and the first type is refused when it comes again. -/
theorem addComponent_keepsAll_button :
    let r := after [.add ⟨"ui.Item", .component none "CoreObject" [], true⟩] (fresh "qml" "1")
    KeepsAll r (run (addComponent "ui.Button" (.component none "Item" []) true) r) ∧
      (run (addComponent "ui.Item" (.component none "Item" []) true) r).1 =
        .error (.duplicateComponent "ui.Item") := by
  intro r
  have hbutton := addComponent_keepsAll_iff ⟨"ui.Button", .component none "Item" [], true⟩ r
  have hitem := addComponent_keepsAll_iff ⟨"ui.Item", .component none "Item" [], true⟩ r
  exact ⟨hbutton.1.mpr (hbutton.2.2.1 (by decide +kernel)),
    congrArg Prod.fst (hitem.2.1 (by decide +kernel))⟩

/-- Registering `a` behind a component with a signal leaves its full name to one without. -/
def Loses (earlier : String) (a : Addition) (key : String) : Prop :=
  let r := after [.add ⟨earlier, .component none "CoreObject" [.signal none "pressed"], a.declaration⟩]
    (fresh "qml" "1")
  (r.components.get? key).map (·.signals) = some ["pressed"] ∧ ¬ KeepsAll r (run (Call.add a).work r) ∧
    (((run (Call.add a).work r).2).components.get? key).map (·.signals) = some []

/-- A type in a package that differs in a character of no name, an application of the same name, and a type
of the same name without a package: each of them overwrites the component that is there. -/
theorem components_lost :
    Loses "a_b.X" ⟨"a-b.X", .component none "CoreObject" [], true⟩ "a_b.X" ∧
      Loses "a.foo" ⟨"a.foo", .component none "CoreObject" [], false⟩ "a.UiFoo" ∧
      Loses "X" ⟨"X", .component none "CoreObject" [], true⟩ ".X" := by
  have hlost : ∀ (a : Addition) (r : Registry) (key : String), a.key? = some key →
      key ∈ r.components.keys → a.name ∉ r.components.keys →
      (Component.build key true a.tree).isOk = true → ¬ KeepsAll r (run (Call.add a).work r) := by
    intro a r key hkey hmem hname hbuild hkeeps
    exact (keepsAll_iff a r).mp hkeeps key ⟨hkey, hmem, hname, exists_of_isOk hbuild⟩
  refine ⟨⟨by decide +kernel, hlost _ _ "a_b.X" ?_ ?_ ?_ ?_, by decide +kernel⟩,
    ⟨by decide +kernel, hlost _ _ "a.UiFoo" ?_ ?_ ?_ ?_, by decide +kernel⟩,
    by decide +kernel, hlost _ _ ".X" ?_ ?_ ?_ ?_, by decide +kernel⟩ <;> decide +kernel

/-- What a reference can mean is the root or a component of the registry. -/
def FindsRegistered (r : Registry) : Prop :=
  ∀ current reference register full, (run (find current reference register {}) r).1 = .ok full →
    full = root ∨ full ∈ r.components.keys

theorem find_ok {current reference full : String} {register : Bool}
    (h : (run (find current reference register {}) r).1 = .ok full) :
    full = root ∨ ∃ package,
      package ∈ r.candidates (splitName reference).1 (splitName reference).2 ∧
        full = package ++ "." ++ (splitName reference).2 := by
  rw [run_find] at h
  split at h
  · exact .inl (Except.ok.inj h).symm
  · split at h
    · cases h
    · rename_i package hpackage
      exact .inr ⟨package, choosePackage_mem hpackage, (Except.ok.inj h).symm⟩

theorem mem_candidates (hn : r.packages.keys.Nodup) {wanted name package : String} :
    package ∈ r.candidates wanted name ↔ name ∈ (r.packages.get? package).getD [] ∧
      (wanted = "" ∨ package = wanted ∨ endsWithText ("." ++ wanted) package = true) := by
  simp only [candidates, mem_filterMap]
  constructor
  · rintro ⟨⟨p, names⟩, hentry, hp⟩
    dsimp only at hp
    split at hp
    · rename_i hcond
      obtain rfl := Option.some.inj hp
      rw [get?_of_mem_entries hn hentry]
      simpa [or_assoc] using hcond
    · simp at hp
  · rintro ⟨hname, hwanted⟩
    cases hget : r.packages.get? package with
    | none => simp [hget] at hname
    | some names =>
      rw [hget] at hname
      refine ⟨(package, names), mem_entries_of_get? hget, ?_⟩
      have hcond : (names.contains name &&
          (wanted = "" || package = wanted || endsWithText ("." ++ wanted) package)) = true := by
        simpa [or_assoc] using ⟨hname, hwanted⟩
      dsimp only
      rw [if_pos hcond]

theorem meant_self {current reference wanted name : String} (hsplit : splitName reference = (wanted, name))
    (h : current ∈ r.candidates wanted name) : r.meant current reference = .ok current := by
  rw [meant, hsplit]
  match r.candidates wanted name, h with
  | [package], h => rw [choosePackage, mem_singleton.mp h]
  | _ :: _ :: _, h => simp only [choosePackage, if_pos (contains_iff_mem.mpr h)]

theorem append_name_ne_rootName (package name : String) : package ++ "." ++ name ≠ rootName := by
  intro heq
  have hmem : '.' ∈ (package ++ "." ++ name).toList := by simp
  rw [heq] at hmem
  exact absurd hmem (by decide)

theorem find_declared {package name : String} (hn : r.packages.keys.Nodup) (hdot : '.' ∉ name.toList)
    (h : name ∈ (r.packages.get? package).getD []) (register : Bool) :
    (run (find package (package ++ "." ++ name) register {}) r).1 = .ok (package ++ "." ++ name) := by
  have hsplit := splitName_append package hdot
  have hcand : package ∈ r.candidates package name := (mem_candidates hn).mpr ⟨h, .inr (.inl rfl)⟩
  rw [run_find, if_neg (append_name_ne_rootName package name), meant_self hsplit hcand, hsplit]
  rfl

namespace Addition

def ofType (item : String × Tree) : Addition := ⟨item.1, item.2, true⟩

def fullName (a : Addition) : String := a.package ++ "." ++ a.localName

theorem key?_ofType (item : String × Tree) : (ofType item).key? = some (ofType item).fullName := rfl

theorem dot_not_mem_localName (a : Addition) : '.' ∉ a.localName.toList := not_mem_splitName a.name

theorem eq_of_name_eq_fullName {a b : Addition} (h : a.name = b.fullName) :
    a.package = b.package ∧ a.localName = b.localName := by
  have hsplit : splitName a.name = (b.package, b.localName) := by
    rw [h, fullName, splitName_append _ b.dot_not_mem_localName]
  refine ⟨?_, by rw [localName, hsplit]⟩
  rw [package, hsplit]
  exact escapeSegments_escapeSegments _

end Addition

/-- Declarations of types, some of which failed: all names are declared, and the types that can be built registered. -/
structure TypesTried (tried : List Addition) (r : Registry) : Prop where
  nodup : r.packages.keys.Nodup
  names : ∀ package name, name ∈ (r.packages.get? package).getD [] ↔
    ∃ a ∈ tried, a.package = package ∧ a.localName = name
  keys : ∀ key, key ∈ r.components.keys ↔
    ∃ a ∈ tried, a.fullName = key ∧ (Component.build key true a.tree).isOk = true

section

variable (h : TypesTried tried r)
include h

theorem TypesTried.announced {s : Registry} (a : Addition)
    (hpackages : s.packages = (a.announce a.fullName r).packages) :
    s.packages.keys.Nodup ∧ ∀ package name, name ∈ (s.packages.get? package).getD [] ↔
      ∃ b ∈ tried ++ [a], b.package = package ∧ b.localName = name := by
  rw [hpackages]
  refine ⟨nodup_keys_insert h.nodup _ _, fun package name => ?_⟩
  have hlast : (∃ b ∈ tried ++ [a], b.package = package ∧ b.localName = name) ↔
      name ∈ (r.packages.get? package).getD [] ∨ (a.package = package ∧ a.localName = name) := by
    rw [h.names]
    simp [or_and_right, exists_or]
  rw [hlast, Addition.announce, get?_insert]
  split
  · rename_i hpackage
    rw [Option.getD_some, NameSet.mem_add, hpackage, or_comm, eq_comm (a := name)]
    simp
  · rename_i hpackage
    simp [hpackage]

theorem TypesTried.mem_keys (a : Addition) (key : String) :
    (∃ b ∈ tried ++ [a], b.fullName = key ∧ (Component.build key true b.tree).isOk = true) ↔
      key ∈ r.components.keys ∨ (a.fullName = key ∧ (Component.build key true a.tree).isOk = true) := by
  rw [h.keys]
  simp [or_and_right, exists_or]

/-- Declaring a type again under a registered full name changes nothing. -/
theorem TypesTried.again (hname : a.name ∈ r.components.keys) : TypesTried (tried ++ [a]) r := by
  obtain ⟨b, hb, hfull, hbuild⟩ := (h.keys _).mp hname
  obtain ⟨hpackage, hlocal⟩ := Addition.eq_of_name_eq_fullName hfull.symm
  refine ⟨h.nodup, fun package name => ?_, fun key => ?_⟩
  · rw [h.names]
    constructor
    · rintro ⟨a', ha', hp⟩
      exact ⟨a', mem_append_left _ ha', hp⟩
    · rintro ⟨a', ha', hp, hl⟩
      rcases mem_append.mp ha' with ha' | ha'
      · exact ⟨a', ha', hp, hl⟩
      · obtain rfl := mem_singleton.mp ha'
        exact ⟨b, hb, hpackage ▸ hp, hlocal ▸ hl⟩
  · rw [h.mem_keys]
    constructor
    · exact .inl
    · rintro (hkey | ⟨rfl, -⟩)
      · exact hkey
      · rw [Addition.fullName, hpackage, hlocal, ← Addition.fullName, hfull]
        exact hname

theorem TypesTried.call (item : String × Tree) :
    TypesTried (tried ++ [.ofType item]) (run (Call.add (.ofType item)).work r).2 := by
  by_cases hname : (Addition.ofType item).name ∈ r.components.keys
  · rw [run_add_of_mem hname]
    exact h.again hname
  · rw [run_add_of_not_mem hname, Addition.key?_ofType]
    dsimp only
    cases hbuild : Component.build (Addition.ofType item).fullName true (Addition.ofType item).tree with
    | error e =>
      obtain ⟨hnodup, hnames⟩ := h.announced (.ofType item) (s := (Addition.ofType item).announce _ r) rfl
      refine ⟨hnodup, hnames, fun key => ?_⟩
      rw [h.mem_keys]
      refine ⟨.inl, ?_⟩
      rintro (hkey | ⟨rfl, hok⟩)
      · exact hkey
      · rw [hbuild] at hok
        cases hok
    | ok c =>
      obtain ⟨hnodup, hnames⟩ := h.announced (.ofType item) (s := (Addition.ofType item).register _ c r) rfl
      refine ⟨hnodup, hnames, fun key => ?_⟩
      rw [h.mem_keys]
      show key ∈ (r.components.insert _ c).keys ↔ _
      rw [mem_keys_insert, or_comm]
      refine or_congr_right ⟨?_, fun hkey => hkey.1.symm⟩
      rintro rfl
      exact ⟨rfl, by rw [hbuild]; rfl⟩

theorem TypesTried.after (items : List (String × Tree)) :
    TypesTried (tried ++ items.map .ofType) (Registry.after (items.map fun item => .add (.ofType item)) r) := by
  induction items generalizing tried r with
  | nil => simpa [Registry.after] using h
  | cons item items ih =>
    have hrest := ih (h.call item)
    rwa [append_assoc] at hrest

end

theorem typesTried_fresh (ns buildId : String) : TypesTried [] (fresh ns buildId) where
  nodup := nodup_nil
  names := by simp [fresh, Table.get?, Table.lookup]
  keys := by simp [fresh, Table.keys]

/-- After declarations of types, some of which may have failed, references lead to registered components
exactly if every type that was declared, the root of all types apart, could be built at least once. -/
theorem findsRegistered_iff (ns buildId : String) (items : List (String × Tree)) :
    FindsRegistered (after (items.map fun item => .add (.ofType item)) (fresh ns buildId)) ↔
      ∀ a ∈ items.map Addition.ofType, a.fullName = root ∨ ∃ b ∈ items.map Addition.ofType,
        b.fullName = a.fullName ∧ (Component.build a.fullName true b.tree).isOk = true := by
  have h := (typesTried_fresh ns buildId).after items
  rw [nil_append] at h
  constructor
  · intro hfinds a ha
    have hname : a.localName ∈ ((after (items.map fun item => .add (.ofType item))
        (fresh ns buildId)).packages.get? a.package).getD [] := (h.names _ _).mpr ⟨a, ha, rfl, rfl⟩
    have hfound := find_declared h.nodup a.dot_not_mem_localName hname true
    exact (hfinds _ _ _ _ hfound).imp_right (h.keys _).mp
  · intro hbuilt current reference register full hfind
    refine (find_ok hfind).elim .inl ?_
    rintro ⟨package, hcand, rfl⟩
    obtain ⟨a, ha, rfl, hlocal⟩ := (h.names _ _).mp ((mem_candidates h.nodup).mp hcand).1
    rw [← hlocal]
    exact (hbuilt a ha).imp_right (h.keys _).mpr

/-- A type that is refused and then comes again without the mistake. -/
theorem findsRegistered_retry :
    FindsRegistered (after
      [.add ⟨"a.X", .component none "CoreObject" [.signal none "s", .signal none "s"], true⟩,
        .add ⟨"a.X", .component none "CoreObject" [.signal none "s"], true⟩] (fresh "qml" "1")) :=
  (findsRegistered_iff "qml" "1"
    [("a.X", .component none "CoreObject" [.signal none "s", .signal none "s"]),
      ("a.X", .component none "CoreObject" [.signal none "s"])]).mpr (by decide +kernel)

/-- A type that declares a signal twice is refused, but the package has its name. -/
theorem refused_type_found :
    (run (addComponent "a.X" (.component none "CoreObject" [.signal none "s", .signal none "s"]) true)
        (fresh "qml" "1")).1.isOk = false ∧
      ¬ FindsRegistered (run (addComponent "a.X"
        (.component none "CoreObject" [.signal none "s", .signal none "s"]) true) (fresh "qml" "1")).2 := by
  refine ⟨by decide +kernel, fun h => ?_⟩
  have hfound : (run (find "a" "X" true {}) (run (addComponent "a.X"
      (.component none "CoreObject" [.signal none "s", .signal none "s"]) true)
      (fresh "qml" "1")).2).1.toOption = some "a.X" := by decide +kernel
  cases hrun : (run (find "a" "X" true {}) (run (addComponent "a.X"
      (.component none "CoreObject" [.signal none "s", .signal none "s"]) true)
      (fresh "qml" "1")).2).1 with
  | error e => simp [hrun, Except.toOption] at hfound
  | ok full =>
    rw [hrun] at hfound
    obtain rfl := Option.some.inj hfound
    exact absurd (h _ _ _ _ hrun) (by decide +kernel)

end QmlScript.Registry
