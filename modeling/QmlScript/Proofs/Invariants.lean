import QmlScript.Proofs.Building
import QmlScript.Proofs.Calls
import QmlScript.Proofs.DottedNames
import QmlScript.Registry.Localization

/-!
# What is true of a registry at all times

Generating a program changes marks, and replaces components by others of the same name. A property that stands
these changes is `Steady`. That each component is found under its own name, in a package of the registry with
an escaped name, is steady, and true of every registry that can be reached.
-/

namespace QmlScript

open List Package Table Component Option

namespace Text

theorem ofNat_ne_dot {n : Nat} (h : 0x2e < n) : Char.ofNat n ≠ '.' := by
  intro hdot
  by_cases hvalid : n.isValidChar
  · have hchar : Char.ofNat n = Char.ofNatAux n hvalid := dif_pos hvalid
    have hvalue : n = 0x2e := congrArg Char.toNat (hchar.symm.trans hdot)
    omega
  · have hchar : Char.ofNat n = Char.ofNat 0 := dif_neg hvalid
    exact absurd (hchar.symm.trans hdot) (by decide)

/-- Its characters, which the kernel is slow to find in the text. -/
theorem wordsOf_cons (line : List Char) (lines : List String) : wordsOf (String.ofList line :: lines) =
    (splitOn ' ' line).map (fun word => word.map Char.toNat) ++ wordsOf lines := by
  rw [wordsOf, flatMap_cons, String.toList_ofList, wordsOf]

theorem dot_not_mem_capital {c : Char} (h : c ≠ '.') : '.' ∉ capital c := by
  have hascii : ∀ n < 128, (Char.ofNat n).toUpper = '.' → Char.ofNat n = '.' := by
    decide +kernel
  have hrows : ∀ row ∈ toCapitalRows, 0x2e < (row.1.first : Int) + row.2 := by
    unfold toCapitalRows letterRows rowsOf
    repeat rw [wordsOf_cons]
    decide +kernel
  have hlong : ∀ form ∈ longCapitalForms, ∀ n ∈ form.2, 0x2e < n := by
    unfold longCapitalForms formsOf
    repeat rw [wordsOf_cons]
    decide +kernel
  unfold capital
  split
  · rename_i hsmall
    intro hdot
    have hupper := hascii c.toNat hsmall
    rw [Char.ofNat_toNat] at hupper
    exact h (hupper (mem_singleton.mp hdot).symm)
  · unfold otherForm
    split
    · rename_i form hform
      intro hdot
      obtain ⟨n, hn, hchar⟩ := mem_map.mp hdot
      exact ofNat_ne_dot (hlong _ (mem_of_find?_eq_some hform) n hn) hchar
    · split
      · rename_i row shift hrow
        have hmem := find?_some hrow
        have hlow := hrows _ (mem_of_find?_eq_some hrow)
        simp only [Row.mem, Bool.and_eq_true, decide_eq_true_eq] at hmem
        intro hdot
        refine ofNat_ne_dot (n := ((c.toNat : Int) + shift).toNat) ?_ (mem_singleton.mp hdot).symm
        dsimp only at hlow
        omega
      · exact fun hdot => h (mem_singleton.mp hdot).symm

end Text

theorem Registry.ofName_applicationName {package name full : String}
    (h : Registry.applicationName? package name = some full) (hname : '.' ∉ name.toList) :
    ofName full = package := by
  unfold Registry.applicationName? at h
  split at h
  · simp at h
  · rename_i c rest hchars
    rw [hchars, mem_cons, not_or] at hname
    have hcapital := Text.dot_not_mem_capital (Ne.symm hname.1)
    have hfull : full = package ++ "." ++ ("Ui" ++ String.ofList (Text.capital c) ++ escape (String.ofList rest)) := by
      rw [← some.inj h]
      apply String.toList_inj.mp
      simp
    rw [hfull, ofName, splitName_append]
    have hrest : '.' ∉ (escape (String.ofList rest)).toList := fun hdot =>
      absurd (Registry.isWordChar_of_mem_escape hdot) (by decide)
    simp [hcapital, hrest]

namespace Registry

variable {α β : Type} {I : Registry → Prop} {r : Registry}

def Keeps (I : Registry → Prop) (w : Work α) : Prop := ∀ r, I r → I (run w r).2

namespace Keeps

theorem pure (a : α) : Keeps I (Pure.pure a : Work α) := fun _ h => h

theorem get : Keeps I (MonadState.get : Work Registry) := fun _ h => h

theorem check (result : Except Error α) : Keeps I (Registry.check result) := fun r h => by
  rwa [run_check]

theorem bind {w : Work α} {f : α → Work β} (hw : Keeps I w) (hf : ∀ a, Keeps I (f a)) : Keeps I (w >>= f) := by
  intro r h
  have hr := hw r h
  rw [run_bind]
  rcases hrun : run w r with ⟨e | a, s⟩
  · rw [hrun] at hr
    exact hr
  · rw [hrun] at hr
    exact hf a s hr

end Keeps

theorem Resolving.keeps {w : Work α} (hw : Resolving w) (huse : ∀ {r}, I r → ∀ name, I (r.use name))
    (husePackage : ∀ {r}, I r → ∀ package, I (r.usePackage package)) : Keeps I w := by
  intro r hr
  have hsame : Indistinct fun r s => r = s ∧ I r :=
    { component := fun ⟨heq, _⟩ _ => by rw [heq]
      size := fun ⟨heq, _⟩ => by rw [heq]
      ids := fun ⟨heq, _⟩ => by rw [heq]
      candidates := fun ⟨heq, _⟩ _ _ => by rw [heq]
      use := fun ⟨heq, hi⟩ _ _ _ _ => ⟨by rw [heq], huse hi _⟩
      usePackage := fun ⟨heq, hi⟩ _ => ⟨by rw [heq], husePackage hi _⟩ }
  have hend := hw _ hsame r r ⟨rfl, hr⟩
  rcases hrun : run w r with ⟨x, s⟩
  rw [hrun] at hend
  cases hend with
  | done _ hs | failed _ _ hs => exact hs.2

/-- A property that neither marks nor replaced components touch. -/
structure Steady (I : Registry → Prop) : Prop where
  use : ∀ {r}, I r → ∀ name, I (r.use name)
  usePackage : ∀ {r}, I r → ∀ package, I (r.usePackage package)
  unmarked : ∀ {r}, I r → I r.unmarked
  replace : ∀ {r}, I r → ∀ {name c d}, r.components.get? name = some c → d.name = c.name →
    ∀ ids, I { r with components := r.components.insert name d, ids }

namespace Steady

section

variable (h : Steady I)
include h

theorem resolves (w : Work α) [hw : Resolves w] : Keeps I w := hw.resolving.keeps h.use h.usePackage

theorem requests (names : List String) {r : Registry} (hr : I r) : I (names.foldl request r) := by
  induction names generalizing r with
  | nil => exact hr
  | cons name names ih => exact ih (h.usePackage (h.use hr name) _)

theorem scanAll (codes : List String) : Keeps I (scanAll codes) := by
  intro r hr
  rw [run_scanAll]
  exact h.requests _ hr

theorem markContext : Keeps I markContext := by
  refine Keeps.bind (h.resolves _) fun context r hr => ?_
  rw [run_bind, run_component_eq]
  cases hc : r.components.get? context with
  | none => exact hr
  | some c => exact h.replace hr (d := setBuildId r.buildId c) hc rfl r.ids

/-- By induction on the components, in the order of preparing them. -/
theorem prepareAll (names : List String) : Keeps I (prepareAll names) := by
  induction names with
  | nil => exact .pure ()
  | cons name names ih =>
    intro r hr
    rw [Registry.prepareAll, run_bind, run_component_eq]
    cases hc : r.components.get? name with
    | none => exact hr
    | some c =>
      have hname : (prepareComponent c r).1.1.name = c.name := by
        have hbare := congrArg Component.name (bare_prepareComponent c r)
        rwa [bare_eq, bare_eq] at hbare
      have hprepared : I (r.prepared name c) := by
        have hreg := prepareComponent_registry c r
        rw [prepared, hreg]
        exact h.replace hr hc hname _
      have hcomponents : (prepareComponent c r).2.components = r.components := by
        rw [prepareComponent_registry]
      rw [prepared, ← hcomponents] at hprepared
      simp only [run_bind, run_get, run_set]
      cases (prepareComponent c r).1.2 with
      | some e => exact hprepared
      | none => exact ih _ hprepared

theorem prepareProgram : Keeps I prepareProgram :=
  .bind (.bind .get fun _ => .bind (h.scanAll _) fun _ => h.markContext) fun _ => .bind .get fun _ => h.prepareAll _

theorem generateQueue (bound : Nat) (queue : List String) (sections : Sections) :
    Keeps I (generateQueue bound queue sections) := by
  induction bound generalizing queue sections with
  | zero => exact .pure sections
  | succ bound ih =>
    intro r hr
    rw [run_generateQueue_succ]
    split
    · exact hr
    · cases waiting queue sections r with
      | nil => exact ih [] sections _ (h.unmarked hr)
      | cons name queue =>
        have hsection := h.resolves (generateSection sections name)
        exact hsection.bind (fun next => ih queue next) _ (h.unmarked hr)

theorem generatePrepared : Keeps I generatePrepared :=
  .bind .get fun _ => .bind (h.generateQueue _ _ _) fun _ => .bind (.check _) fun _ => .pure _

theorem generateComponents : Keeps I generateComponents := by
  rw [generateComponents_eq]
  exact h.prepareProgram.bind fun _ => h.generatePrepared

theorem usePackages (packages : List String) {r : Registry} (hr : I r) :
    I { r with usedPackages := packages.foldl NameSet.add r.usedPackages } := by
  induction packages generalizing r with
  | nil => exact hr
  | cons package packages ih => exact ih (h.usePackage hr package)

theorem prologue : Keeps I prologue := by
  refine Keeps.bind (fun r hr => ?_) fun _ => .bind .get fun _ => .bind (.check _) fun _ => .pure _
  have hpackages := h.usePackages (r.imports.keys.map ofName) hr
  rwa [foldl_map] at hpackages

theorem finishProgram (sections : String) : Keeps I (finishProgram sections) :=
  h.prologue.bind fun _ => .bind .get fun _ => .check _

theorem generate : Keeps I generate := by
  rw [generate_eq]
  exact h.prepareProgram.bind fun _ => h.generatePrepared.bind fun _ => h.finishProgram _

theorem startupText (ns app : String) : Keeps I (startupText ns app) := by
  refine Keeps.bind (h.resolves _) fun context => .bind .get fun r => ?_
  dsimp only
  split <;> exact .pure _

end

end Steady

theorem steady_ns (ns : String) : Steady fun r => r.ns = ns where
  use h _ := h
  usePackage h _ := h
  unmarked h := h
  replace h _ _ _ _ _ _ := h

theorem steady_packages (packages : Table String NameSet) : Steady fun r => r.packages = packages where
  use h _ := h
  usePackage h _ := h
  unmarked h := h
  replace h _ _ _ _ _ _ := h

/-- Each component is found under its own name, in a package of the registry; names are escaped. -/
structure Sound (r : Registry) : Prop where
  named : ∀ key c, r.components.get? key = some c → c.name = key
  declared : ∀ key ∈ r.components.keys, ofName key ∈ r.packages.keys
  escaped : ∀ package ∈ r.packages.keys, escapeSegments package = package

namespace Sound

variable {r s : Registry}

theorem of_eq (h : Sound r) (hcomponents : s.components = r.components)
    (hpackages : s.packages = r.packages) : Sound s :=
  ⟨hcomponents ▸ h.named, hcomponents ▸ hpackages ▸ h.declared, hpackages ▸ h.escaped⟩

theorem steady : Steady Sound where
  use h _ := h.of_eq rfl rfl
  usePackage h _ := h.of_eq rfl rfl
  unmarked h := h.of_eq rfl rfl
  replace {r} h {name c d} hc hname ids := by
    refine ⟨fun key c' hc' => ?_, fun key hkey => ?_, h.escaped⟩
    · dsimp only at hc'
      rw [get?_insert] at hc'
      split at hc'
      · rename_i heq
        rw [← some.inj hc', hname, ← heq]
        exact h.named name c hc
      · exact h.named key c' hc'
    · have hmem : name ∈ r.components.keys := (mem_keys_iff _ _).mpr ⟨c, hc⟩
      dsimp only at hkey
      rw [keys_insert_of_mem hmem] at hkey
      exact h.declared key hkey

theorem fresh (ns buildId : String) : Sound (Registry.fresh ns buildId) :=
  ⟨by simp [Registry.fresh, Table.get?, Table.lookup], by simp [Registry.fresh, Table.keys],
    by simp [Registry.fresh, Table.keys]⟩

theorem announce (h : Sound r) (a : Addition) (key : String) : Sound (a.announce key r) := by
  refine ⟨h.named, fun name hname => ?_, fun package hpackage => ?_⟩
  · exact (mem_keys_insert _ _ _ _).mpr (.inr (h.declared name hname))
  · rcases (mem_keys_insert _ _ _ _).mp hpackage with rfl | hpackage
    · exact escapeSegments_escapeSegments _
    · exact h.escaped package hpackage

theorem register (h : Sound r) {a : Addition} {key : String} (hkey : a.key? = some key) {c : Component}
    (hc : c.name = key) : Sound (a.register key c r) := by
  have hannounced := h.announce a key
  have hpackage : ofName key = a.package := by
    have hdot : '.' ∉ a.localName.toList := not_mem_splitName a.name
    unfold Addition.key? at hkey
    split at hkey
    · rw [← some.inj hkey, ofName, splitName_append _ hdot]
    · exact ofName_applicationName hkey hdot
  refine ⟨fun name d hd => ?_, fun name hname => ?_, hannounced.escaped⟩
  · rcases eq_or_ne key name with rfl | hne
    · obtain rfl := some.inj ((get?_insert_self _ _ _).symm.trans hd)
      exact hc
    · exact h.named name d ((get?_insert_of_ne _ _ hne).symm.trans hd)
  · rcases (mem_keys_insert _ _ _ _).mp hname with rfl | hname
    · rw [hpackage]
      exact (mem_keys_insert _ _ _ _).mpr (.inl rfl)
    · exact hannounced.declared name hname

theorem call (h : Sound r) (call : Call) : Sound (run call.work r).2 := by
  generalize hs : (run call.work r).2 = s
  cases Call.leaves hs with
  | same => exact h
  | announced => exact h.announce _ _
  | registered _ hkey hbuild => exact h.register hkey (name_of_build hbuild)
  | imported => exact h.of_eq rfl rfl
  | scanned => exact steady.requests _ h

end Sound

/-- Registries filled by calls, with names resolved, components prepared and programs generated, in any order and also
if something fails. -/
inductive Reachable : Registry → Prop
  | fresh (ns buildId : String) : Reachable (Registry.fresh ns buildId)
  | call {r : Registry} (h : Reachable r) (call : Call) : Reachable (run call.work r).2
  | catalog {r : Registry} (h : Reachable r) (catalog : Localization.Catalog) :
      Reachable (addCatalog catalog r).1
  | module {r : Registry} (h : Reachable r) (module : Bool) : Reachable { r with module }
  | resolve {r : Registry} (h : Reachable r) {α : Type} {w : Work α} (hw : Resolving w) :
      Reachable (run w r).2
  | prepare {r : Registry} (h : Reachable r) (names : List String) :
      Reachable (run (prepareAll names) r).2
  | sections {r : Registry} (h : Reachable r) : Reachable (run generateComponents r).2
  | prologue {r : Registry} (h : Reachable r) : Reachable (run prologue r).2
  | program {r : Registry} (h : Reachable r) : Reachable (run generate r).2
  | startup {r : Registry} (h : Reachable r) (ns app : String) : Reachable (run (startupText ns app) r).2

theorem Reachable.after (h : Reachable r) (calls : List Call) : Reachable (Registry.after calls r) := by
  induction calls generalizing r with
  | nil => exact h
  | cons call calls ih => exact ih (h.call call)

/-- A steady property that calls keep holds of what can be reached. -/
theorem Reachable.invariant (hsteady : Steady I) (hfresh : ∀ ns buildId, I (Registry.fresh ns buildId))
    (hcall : ∀ {r}, I r → ∀ call : Call, I (run call.work r).2)
    (hsame : ∀ {r s : Registry}, I r → s.components = r.components → s.packages = r.packages → I s)
    (h : Reachable r) : I r := by
  induction h with
  | fresh ns buildId => exact hfresh ns buildId
  | call _ call ih => exact hcall ih call
  | catalog _ catalog ih =>
    unfold addCatalog
    split
    · exact ih
    · dsimp only
      split
      · exact ih
      · exact hsame ih rfl rfl
  | module _ _ ih => exact hsame ih rfl rfl
  | resolve _ hw ih => exact hw.keeps hsteady.use hsteady.usePackage _ ih
  | prepare _ names ih => exact hsteady.prepareAll names _ ih
  | sections _ ih => exact hsteady.generateComponents _ ih
  | prologue _ ih => exact hsteady.prologue _ ih
  | program _ ih => exact hsteady.generate _ ih
  | startup _ ns app ih => exact hsteady.startupText ns app _ ih

theorem Reachable.sound (h : Reachable r) : Sound r :=
  h.invariant Sound.steady .fresh Sound.call Sound.of_eq

end Registry

end QmlScript
