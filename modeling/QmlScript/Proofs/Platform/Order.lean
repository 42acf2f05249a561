import Mathlib.Order.WellFounded
import Mathlib.Data.Set.Finite.Basic
import QmlScript.Proofs.Paths
import QmlScript.Proofs.Platform.Discovery

/-!
# The order of platforms

Platforms that were discovered are met in rounds, and one that needs nothing any more is ready. If no platform
needs itself, directly or not, some platform becomes ready in every round, so that in the end all are.
-/

namespace QmlScript.Build

open Job Relation List Table

def IsOrdered (of : String → Platform) (names : List String) : Prop :=
  ∀ front name back, names = front ++ name :: back → ∀ need ∈ (of name).needs, need ∈ front

section

variable {of : String → Platform} {names : List String} {state : Unrolled} {name : String}

theorem IsOrdered.nil : IsOrdered of [] := fun front name back h => by simp at h

theorem IsOrdered.append (h : IsOrdered of names) (hneeds : ∀ need ∈ (of name).needs, need ∈ names) :
    IsOrdered of (names ++ [name]) := by
  intro front other back heq
  rcases eq_nil_or_concat back with rfl | ⟨back, last, rfl⟩
  · obtain ⟨rfl, hlast⟩ := append_inj' (show names ++ [name] = front ++ [other] from heq) rfl
    obtain rfl : name = other := by simpa using hlast
    exact hneeds
  · have heq' : names ++ [name] = (front ++ other :: back) ++ [last] := by simpa using heq
    exact h front other back (append_inj' heq' rfl).1

structure IsUnrolled (of : String → Platform) (names : List String) (state : Unrolled) : Prop where
  keys : state.needs.keys.Nodup
  ready : state.ready.Nodup
  mem_iff : ∀ name, name ∈ names ↔ name ∈ state.ready ∨ name ∈ state.needs.keys
  apart : ∀ name ∈ state.ready, name ∉ state.needs.keys
  left : ∀ name needs, state.needs.get? name = some needs →
    ∀ need, need ∈ needs ↔ need ∈ (of name).needs ∧ need ∉ state.ready
  ordered : IsOrdered of state.ready
  met : state.met.Nodup
  met_mem : ∀ name ∈ state.met, name ∈ names
  ready_met : ∀ name ∈ state.ready, name ∈ state.met

def Unrolled.metWith (state : Unrolled) (name : String) : List String :=
  if state.met.contains name then state.met else state.met ++ [name]

theorem meet_eq (state : Unrolled) (name : String) :
    meet state name =
      if (state.needs.get? name).getD [] = [] then
        { met := state.metWith name, ready := state.ready ++ [name]
          needs := (state.needs.erase name).map fun needs => needs.filter (· ≠ name) }
      else { state with met := state.metWith name } := rfl

theorem mem_metWith (state : Unrolled) (name other : String) :
    other ∈ state.metWith name ↔ other = name ∨ other ∈ state.met := by
  unfold Unrolled.metWith
  split
  · rename_i h
    have hmem : name ∈ state.met := by simpa using h
    exact ⟨.inr, fun h => h.elim (fun h => h ▸ hmem) id⟩
  · rw [mem_append, mem_singleton, or_comm]

section

variable (h : IsUnrolled of names state)
include h

theorem IsUnrolled.nodup_metWith (name : String) : (state.metWith name).Nodup := by
  unfold Unrolled.metWith
  split
  · exact h.met
  · rename_i hname
    rw [← concat_eq_append]
    exact h.met.concat (by simpa using hname)

theorem IsUnrolled.wait (hname : name ∈ state.needs.keys) :
    IsUnrolled of names { state with met := state.metWith name } where
  keys := h.keys
  ready := h.ready
  mem_iff := h.mem_iff
  apart := h.apart
  left := h.left
  ordered := h.ordered
  met := h.nodup_metWith name
  met_mem other hother := by
    rcases (mem_metWith state name other).1 hother with rfl | hother
    · exact (h.mem_iff other).2 (.inr hname)
    · exact h.met_mem other hother
  ready_met other hother := (mem_metWith state name other).2 (.inr (h.ready_met other hother))

theorem IsUnrolled.release (hname : name ∈ state.needs.keys) (hneeds : ∀ need ∈ (of name).needs, need ∈ state.ready) :
    IsUnrolled of names
      { met := state.metWith name, ready := state.ready ++ [name]
        needs := (state.needs.erase name).map fun needs => needs.filter (· ≠ name) } := by
  have hnew : name ∉ state.ready := fun hready => h.apart name hready hname
  have hkeys : ((state.needs.erase name).map fun needs => needs.filter (· ≠ name)).keys =
      state.needs.keys.filter (· ≠ name) := by rw [keys_map, keys_erase]
  refine ⟨?_, ?_, fun other => ?_, fun other hother => ?_, fun other needs hget need => ?_, h.ordered.append hneeds,
    h.nodup_metWith name, fun other hother => ?_, fun other hother => ?_⟩
  · exact hkeys ▸ h.keys.filter _
  · rw [← concat_eq_append]
    exact h.ready.concat hnew
  · rw [h.mem_iff, hkeys, mem_append, mem_singleton, mem_filter, decide_eq_true_iff]
    by_cases heq : other = name
    · simp [heq, hname]
    · simp [heq]
  · rw [hkeys, mem_filter, decide_eq_true_iff]
    rcases mem_append.1 hother with hother | hother
    · exact fun hkey => h.apart other hother hkey.1
    · exact fun hkey => hkey.2 (mem_singleton.1 hother)
  · by_cases heq : other = name
    · have hkey := (mem_keys_iff _ _).2 ⟨needs, hget⟩
      rw [hkeys, mem_filter, decide_eq_true_iff] at hkey
      exact absurd heq hkey.2
    · rw [get?_map, get?_erase_of_ne _ heq] at hget
      obtain ⟨old, hold, rfl⟩ := Option.map_eq_some_iff.1 hget
      rw [mem_filter, h.left other old hold, mem_append, mem_singleton, decide_eq_true_iff, not_or, and_assoc]
  · rcases (mem_metWith state name other).1 hother with rfl | hother
    · exact (h.mem_iff other).2 (.inr hname)
    · exact h.met_mem other hother
  · rcases mem_append.1 hother with hother | hother
    · exact (mem_metWith state name other).2 (.inr (h.ready_met other hother))
    · exact (mem_metWith state name other).2 (.inl (mem_singleton.1 hother))

theorem IsUnrolled.needs_nil_iff (hname : name ∈ state.needs.keys) :
    (state.needs.get? name).getD [] = [] ↔ ∀ need ∈ (of name).needs, need ∈ state.ready := by
  obtain ⟨needs, hget⟩ := (mem_keys_iff _ _).1 hname
  rw [hget, Option.getD_some, eq_nil_iff_forall_not_mem]
  constructor
  · intro hnil need hneed
    by_contra hready
    exact hnil need ((h.left name needs hget need).2 ⟨hneed, hready⟩)
  · intro hready need hneed
    have hleft := (h.left name needs hget need).1 hneed
    exact hleft.2 (hready need hleft.1)

end

structure IsMeeting (of : String → Platform) (state : Unrolled) (name : String) (state' : Unrolled) : Prop where
  others : ∀ other, other ≠ name → (other ∈ state'.needs.keys ↔ other ∈ state.needs.keys)
  keys : state'.needs.keys.Sublist state.needs.keys
  ready : ∀ other ∈ state.ready, other ∈ state'.ready
  released : (∀ need ∈ (of name).needs, need ∈ state.ready) → name ∉ state'.needs.keys

theorem IsUnrolled.meet (h : IsUnrolled of names state) (hname : name ∈ state.needs.keys) :
    IsUnrolled of names (meet state name) ∧ IsMeeting of state name (meet state name) := by
  have hnil := h.needs_nil_iff hname
  rw [meet_eq]
  split
  · rename_i hempty
    have hkeys : ((state.needs.erase name).map fun needs => needs.filter (· ≠ name)).keys =
        state.needs.keys.filter (· ≠ name) := by rw [keys_map, keys_erase]
    refine ⟨h.release hname (hnil.1 hempty), fun other hother => ?_, ?_, fun other hother => ?_, fun _ => ?_⟩
    · rw [hkeys, mem_filter, decide_eq_true_iff]
      exact and_iff_left hother
    · rw [hkeys]
      exact filter_sublist
    · exact mem_append_left _ hother
    · rw [hkeys]
      simp
  · rename_i hempty
    exact ⟨h.wait hname, fun _ _ => .rfl, .refl _, fun _ => id, fun hready => absurd (hnil.2 hready) hempty⟩

theorem IsUnrolled.round (h : IsUnrolled of names state) {keys : List String} (hkeys : keys.Nodup)
    (hmem : ∀ key ∈ keys, key ∈ state.needs.keys) :
    IsUnrolled of names (keys.foldl Build.meet state) ∧
      (keys.foldl Build.meet state).needs.keys.Sublist state.needs.keys ∧
      ∀ key ∈ keys, (∀ need ∈ (of key).needs, need ∈ state.ready) → key ∉ (keys.foldl Build.meet state).needs.keys := by
  induction keys generalizing state with
  | nil => exact ⟨h, .refl _, fun _ hkey => absurd hkey not_mem_nil⟩
  | cons key keys ih =>
    obtain ⟨hkey, hkeys⟩ := nodup_cons.1 hkeys
    obtain ⟨hnext, hmeeting⟩ := h.meet (hmem key mem_cons_self)
    have hrest : ∀ other ∈ keys, other ∈ (Build.meet state key).needs.keys := fun other hother =>
      (hmeeting.others other fun heq => hkey (heq ▸ hother)).2 (hmem other (mem_cons_of_mem _ hother))
    obtain ⟨hend, hsub, hgone⟩ := ih hnext hkeys hrest
    refine ⟨hend, hsub.trans hmeeting.keys, fun other hother hready => ?_⟩
    rcases mem_cons.1 hother with rfl | hother
    · exact fun hmem => hmeeting.released hready (hsub.subset hmem)
    · exact hgone other hother fun need hneed => hmeeting.ready need (hready need hneed)

/-- One of several platforms needs no other of them, if none needs itself. -/
theorem exists_last (hne : names ≠ []) (hacyclic : ∀ name ∈ names, ¬TransGen (Needs of) name name) :
    ∃ name ∈ names, ∀ other ∈ names, ¬Needs of name other := by
  have : Finite { name // name ∈ names } := finite_toSet names
  have : IsTrans { name // name ∈ names } fun a b => TransGen (Needs of) b.1 a.1 :=
    ⟨fun _ _ _ hab hbc => hbc.trans hab⟩
  have : Std.Irrefl fun a b : { name // name ∈ names } => TransGen (Needs of) b.1 a.1 :=
    ⟨fun a => hacyclic a.1 a.2⟩
  have hwf := Finite.wellFounded_of_trans_of_irrefl fun a b : { name // name ∈ names } => TransGen (Needs of) b.1 a.1
  obtain ⟨name, hname⟩ := exists_mem_of_ne_nil _ hne
  obtain ⟨last, -, hlast⟩ := hwf.has_min Set.univ ⟨⟨name, hname⟩, trivial⟩
  exact ⟨last.1, last.2, fun other hother hneed => hlast ⟨other, hother⟩ trivial (.single hneed)⟩

section

variable (h : IsUnrolled of names state) (hclosed : ∀ name ∈ names, ∀ need ∈ (of name).needs, need ∈ names)
  (hacyclic : ∀ name ∈ names, ¬TransGen (Needs of) name name)
include h hclosed hacyclic

/-- If no platform needs itself, one that is left has all it needs. -/
theorem IsUnrolled.exists_free (hkeys : state.needs.keys ≠ []) :
    ∃ key ∈ state.needs.keys, ∀ need ∈ (of key).needs, need ∈ state.ready := by
  obtain ⟨key, hkey, hlast⟩ := exists_last hkeys fun key hkey => hacyclic key ((h.mem_iff key).2 (.inr hkey))
  refine ⟨key, hkey, fun need hneed => ?_⟩
  rcases (h.mem_iff need).1 (hclosed key ((h.mem_iff key).2 (.inr hkey)) need hneed) with hready | hleft
  · exact hready
  · exact absurd hneed (hlast need hleft)

/-- Every round makes a platform ready, so there are at most as many. -/
theorem IsUnrolled.exists_unroll {bound : Nat} (hbound : state.needs.keys.length ≤ bound) :
    ∃ state', unroll bound state = some state' ∧ IsUnrolled of names state' ∧ state'.needs.keys = [] := by
  induction bound generalizing state with
  | zero =>
    have hnil : state.needs.entries = [] := by simpa [Table.keys] using hbound
    refine ⟨state, ?_, h, by rw [Table.keys, hnil, map_nil]⟩
    rw [unroll, hnil]
    rfl
  | succ bound ih =>
    by_cases hempty : state.needs.entries = []
    · refine ⟨state, ?_, h, by rw [Table.keys, hempty, map_nil]⟩
      rw [unroll, hempty]
      rfl
    · have hkeys : state.needs.keys ≠ [] := by rwa [Table.keys, Ne, map_eq_nil_iff]
      obtain ⟨key, hkey, hfree⟩ := h.exists_free hclosed hacyclic hkeys
      obtain ⟨hnext, hsub, hgone⟩ := h.round h.keys fun _ => id
      rw [unroll, if_neg (by simpa using hempty)]
      refine ih hnext ?_
      have hless : (state.needs.keys.foldl Build.meet state).needs.keys.length < state.needs.keys.length :=
        lt_of_le_of_ne hsub.length_le fun heq => hgone key hkey hfree (by rwa [hsub.eq_of_length heq])
      omega

end

theorem get?_needs_ofNames {needs : NameSet} (h : (Platforms.ofNames of names).needs.get? name = some needs) :
    needs = orderedSet textLt (of name).needs := by
  obtain ⟨other, -, heq⟩ := mem_map.1 (mem_entries_of_get? h)
  obtain ⟨rfl, rfl⟩ := Prod.mk.inj heq
  rfl

theorem IsUnrolled.init (hnames : names.Nodup) :
    IsUnrolled of names { needs := (Platforms.ofNames of names).needs } where
  keys := (keys_needs_ofNames of names).symm ▸ hnames
  ready := nodup_nil
  mem_iff other := by simp [keys_needs_ofNames]
  apart _ h := absurd h not_mem_nil
  left other needs hget need := by
    rw [get?_needs_ofNames hget]
    exact (NameSet.mem_foldl_add [] (of other).needs need).trans (by simp)
  ordered := .nil
  met := nodup_nil
  met_mem _ h := absurd h not_mem_nil
  ready_met _ h := absurd h not_mem_nil

theorem exists_order (hnames : names.Nodup) (hclosed : ∀ name ∈ names, ∀ need ∈ (of name).needs, need ∈ names)
    (hacyclic : ∀ name ∈ names, ¬TransGen (Needs of) name name) :
    ∃ state, order (.ofNames of names) = .ok state ∧ state.ready.Perm names ∧ state.met.Perm names ∧
      IsOrdered of state.ready := by
  obtain ⟨state, hunroll, hstate, hkeys⟩ := (IsUnrolled.init hnames).exists_unroll hclosed hacyclic
    (length_keys (Platforms.ofNames of names).needs).le
  have hready : ∀ name, name ∈ state.ready ↔ name ∈ names := fun name => by
    rw [hstate.mem_iff, hkeys]
    simp
  refine ⟨state, by rw [order, hunroll], ?_, ?_, hstate.ordered⟩
  · exact (perm_ext_iff_of_nodup hstate.ready hnames).2 hready
  · refine (perm_ext_iff_of_nodup hstate.met hnames).2 fun name => ⟨hstate.met_mem name, fun hname => ?_⟩
    exact hstate.ready_met name ((hready name).2 hname)

theorem filterMap_paths_ofNames {ordered : List String} (hordered : ∀ name ∈ ordered, name ∈ names) :
    ordered.filterMap (Platforms.ofNames of names).paths.get? = ordered.map fun name => (of name).directory := by
  rw [← filterMap_eq_map]
  refine filterMap_congr fun name hname => ?_
  have hkey : name ∈ (Platforms.ofNames of names).paths.keys := by
    rw [keys_paths_ofNames]
    exact hordered name hname
  obtain ⟨directory, hget⟩ := (mem_keys_iff _ _).1 hkey
  obtain ⟨other, -, heq⟩ := mem_map.1 (mem_entries_of_get? hget)
  obtain ⟨rfl, rfl⟩ := Prod.mk.inj heq
  exact hget

end

/-- What planning needs: the platforms of the command and the manifest, all that they reach, and a target that may be
built. -/
structure IsSupplied (tree : FileTree) (root target : String) (manifest : Manifest) (packages start : List String)
    (of : String → Platform) : Prop where
  beside : Build.packages tree root = .ok packages
  starts : ∃ general special, manifest.requires = .ok (.arr (general.map .str)) ∧
    manifest.platformRequires target = .ok (.arr (special.map .str)) ∧ start = target :: general ++ special
  found : ∀ name, Reached of start name → (of name).IsFound tree root target packages name
  standalone : ∃ value, (of target).manifest.standalone = .ok value ∧ value.isTruthy = true

/-- What building for the target needs: besides, no platform needs itself. -/
structure IsBuildable (tree : FileTree) (root target : String) (manifest : Manifest) (packages start : List String)
    (of : String → Platform) : Prop extends IsSupplied tree root target manifest packages start of where
  acyclic : ∀ name, Reached of start name → ¬TransGen (Needs of) name name

section

variable {tree : FileTree} {root target : String} {manifest : Manifest} {packages start : List String}
  {of : String → Platform}

theorem exists_top {key : String} {default value : Json} (h : manifest.top key default = .ok value) (other : String)
    (default' : Json) : ∃ value', manifest.top other default' = .ok value' := by
  obtain ⟨data⟩ := manifest
  cases data with
  | obj fields => exact ⟨_, rfl⟩
  | _ => cases h

/-- There is a plan if the discovered platforms can be put in order. -/
theorem IsSupplied.answer_plan (h : IsSupplied tree root target manifest packages start of) :
    ∃ templates, answer tree (plan root target manifest) =
      (order (.ofNames of (discovered of tree target start))).map fun state => {
        platforms := state.met
        directories := state.ready.filterMap (Platforms.ofNames of (discovered of tree target start)).paths.get?
        manifests := ((discovered of tree target start).map fun name => (of name).manifest).reverse
        templates, packages := packages.filter (isPublic tree) } := by
  obtain ⟨general, special, hgeneral, hspecial, hstart⟩ := h.starts
  obtain ⟨value, hstandalone, htruthy⟩ := h.standalone
  have htarget := h.found target (.first (hstart ▸ mem_cons_self))
  obtain ⟨given, hgiven⟩ := exists_top hgeneral "templates" (.arr [.str "*.html"])
  obtain ⟨templates, htemplates⟩ := exists_top hstandalone "templates" (.arr [.str "*.html"])
  have hdiscover : answer tree (discover root target packages ((mentioned tree target).length + start.length + 1) {}
      (start.map .str)) = .ok (.ofNames of (discovered of tree target start)) :=
    answer_discover (.init of start) h.found _
  have hnames : Json.str target :: general.map Json.str ++ special.map Json.str = start.map Json.str := by
    rw [hstart]
    simp
  refine ⟨templates, ?_⟩
  unfold plan
  rw [answer_get_bind, answer_ofExcept_bind h.beside, answer_ofExcept_bind htarget.directory,
    answer_setting_bind (show manifest.templates = _ from hgiven), answer_readManifest_bind htarget.manifest,
    answer_setting_bind (show (of target).manifest.templates = _ from htemplates), answer_setting_bind hstandalone]
  dsimp only
  rw [if_pos htruthy, answer_setting_bind hgeneral, answer_ofExcept_bind (show platformList _ = _ from rfl),
    answer_setting_bind hspecial, answer_ofExcept_bind (show platformList _ = _ from rfl), hnames, length_map,
    answer_bind, hdiscover]
  dsimp only [bind, Except.bind]
  cases order (.ofNames of (discovered of tree target start)) <;> rfl

/-- The plan by three orders of what can be reached: of discovery, of getting ready, and of meeting. -/
theorem IsBuildable.exists_plan (h : IsBuildable tree root target manifest packages start of) :
    ∃ ordered met templates,
      answer tree (plan root target manifest) = .ok {
        platforms := met
        directories := ordered.map fun name => (of name).directory
        manifests := ((discovered of tree target start).map fun name => (of name).manifest).reverse
        templates, packages := packages.filter (isPublic tree) } ∧
      ordered.Nodup ∧ (∀ name, name ∈ ordered ↔ Reached of start name) ∧ met.Perm ordered ∧
      IsOrdered of ordered := by
  have hsearched := isSearched_discovered h.found
  have hreached := hsearched.mem_iff
  obtain ⟨state, horder, hready, hmet, hordered⟩ := exists_order hsearched.nodup
    (fun name hname need hneed => (hreached need).2 (((hreached name).1 hname).need hneed))
    (fun name hname => h.acyclic name ((hreached name).1 hname))
  obtain ⟨templates, hplan⟩ := h.toIsSupplied.answer_plan
  refine ⟨state.ready, state.met, templates, ?_, hready.nodup_iff.2 hsearched.nodup,
    fun name => hready.mem_iff.trans (hreached name), hmet.trans hready.symm, hordered⟩
  rw [hplan, horder, ← filterMap_paths_ofNames fun name => hready.mem_iff.1]
  rfl

instance (root target : String) (manifest : Manifest) : Looks (plan root target manifest) := by
  unfold plan
  refine looks_get_bind (h := fun w => ?_) fun _ _ h => by rw [h]
  iterate 6 refine @Looks.bind _ _ _ _ inferInstance fun _ => ?_
  dsimp only
  split <;> infer_instance

theorem Platform.IsFound.getLast?_simplified {name : String} {platform : Platform}
    (h : platform.IsFound tree root target packages name) (hname : Path.IsName name) :
    (Path.simplified platform.directory).getLast? = some name := by
  have hdirectory := h.directory
  unfold findPlatform at hdirectory
  dsimp only at hdirectory
  split at hdirectory
  · rename_i place hplace
    obtain rfl := Except.ok.inj hdirectory
    rcases mem_cons.1 (mem_of_find?_eq_some hplace) with heq | hmem
    · rw [heq, Path.simplified_join hname, getLast?_concat]
    · obtain ⟨package, -, heq⟩ := mem_map.1 hmem
      rw [← heq, Path.simplified_join hname, getLast?_concat]
  · cases hdirectory

theorem eq_of_directory {name other : String} (hfound : (of name).IsFound tree root target packages name)
    (hother : (of other).IsFound tree root target packages other) (hname : Path.IsName name)
    (hcalled : Path.IsName other)
    (heq : Path.simplified (of name).directory = Path.simplified (of other).directory) : name = other := by
  have hlast := hfound.getLast?_simplified hname
  rw [heq, hother.getLast?_simplified hcalled] at hlast
  exact (Option.some.inj hlast).symm

/-- The plan to build for a platform can be made if no platform needs itself. The platforms that can be reached,
and no others, are in it once, with their directories, each behind those of the platforms that are needed. A
directory is in it twice only if two platforms are the same place, which no two names without slashes are. -/
theorem plan_in_order (w : Workspace) (h : IsBuildable w.tree root target manifest packages start of) :
    ∃ result ordered, ((plan root target manifest).runIn w).1 = .ok result ∧
      result.directories = ordered.map (fun name => (of name).directory) ∧
      ordered.Nodup ∧ (∀ name, name ∈ ordered ↔ Reached of start name) ∧
      (∀ front name back, ordered = front ++ name :: back → ∀ need ∈ (of name).needs, need ∈ front) ∧
      result.platforms.Perm ordered ∧
      ((result.directories.map Path.simplified).Nodup ↔ ∀ name other, Reached of start name → Reached of start other →
        Path.simplified (of name).directory = Path.simplified (of other).directory → name = other) ∧
      ((∀ name, Reached of start name → Path.IsName name) → (result.directories.map Path.simplified).Nodup) := by
  obtain ⟨ordered, met, templates, hplan, hnodup, hmem, hmet, hbehind⟩ := h.exists_plan
  have honce : ((ordered.map fun name => (of name).directory).map Path.simplified).Nodup ↔
      ∀ name other, Reached of start name → Reached of start other →
        Path.simplified (of name).directory = Path.simplified (of other).directory → name = other := by
    rw [List.map_map, nodup_map_iff_inj_on hnodup]
    refine ⟨fun hall name other hname hother heq => ?_, fun hall name hname other hother heq => ?_⟩
    · exact hall name ((hmem name).2 hname) other ((hmem other).2 hother) heq
    · exact hall name other ((hmem name).1 hname) ((hmem other).1 hother) heq
  refine ⟨_, ordered, (Looks.runIn_eq w).1.trans hplan, rfl, hnodup, hmem, hbehind, hmet, honce,
    fun hcalled => honce.2 fun name other hname hother => ?_⟩
  exact eq_of_directory (h.found name hname) (h.found other hother) (hcalled name hname) (hcalled other hother)

end

/-! ## A program for three platforms -/

def platform? (tree : FileTree) (root target : String) (packages : List String) (name : String) : Option Platform := do
  let directory ← (findPlatform tree root packages name).toOption
  let manifest ← (Compile.readManifest tree (Path.join directory Compile.manifestFile)).toOption
  let needs ← (needsOf target manifest).toOption
  if needs.length = (texts needs).length then some { directory, manifest, needs := texts needs } else none

theorem map_str_texts {values : List Json} (h : values.length = (texts values).length) :
    (texts values).map .str = values := by
  induction values with
  | nil => rfl
  | cons value values ih =>
    have hle : (texts values).length ≤ values.length := length_filterMap_le _ _
    cases value with
    | str s => exact congrArg (Json.str s :: ·) (ih (Nat.succ.inj h))
    | _ => exact absurd (h.trans_le hle) (Nat.not_succ_le_self _)

theorem isFound_of_platform? {tree : FileTree} {root target : String} {packages : List String} {name : String}
    {platform : Platform} (h : platform? tree root target packages name = some platform) :
    platform.IsFound tree root target packages name := by
  unfold platform? at h
  cases hdirectory : findPlatform tree root packages name with
  | error e =>
    rw [hdirectory] at h
    cases h
  | ok directory =>
    rw [hdirectory] at h
    dsimp only [Except.toOption, bind, Option.bind] at h
    cases hmanifest : Compile.readManifest tree (Path.join directory Compile.manifestFile) with
    | error e =>
      rw [hmanifest] at h
      cases h
    | ok manifest =>
      rw [hmanifest] at h
      dsimp only at h
      cases hneeds : needsOf target manifest with
      | error e =>
        rw [hneeds] at h
        cases h
      | ok needs =>
        rw [hneeds] at h
        dsimp only at h
        split at h
        · rename_i hlength
          obtain rfl := Option.some.inj h
          exact ⟨hdirectory, hmanifest, by rw [hneeds, map_str_texts hlength]⟩
        · cases h

/-- Platforms that need only what stands in front of them are those reached, and none needs itself. -/
theorem reached_and_acyclic {of : String → Platform} {start ordered : List String}
    (hstart : ∀ name ∈ start, name ∈ ordered)
    (hneeds : ∀ name ∈ ordered, ∀ need ∈ (of name).needs, need ∈ ordered ∧ ordered.idxOf need < ordered.idxOf name) :
    ∀ name, Reached of start name → name ∈ ordered ∧ ¬TransGen (Needs of) name name := by
  have hmem : ∀ name, Reached of start name → name ∈ ordered := by
    rintro name ⟨first, hfirst, hway⟩
    induction hway with
    | refl => exact hstart first hfirst
    | tail _ hneed ih => exact (hneeds _ ih _ hneed).1
  have hless : ∀ name other, name ∈ ordered → TransGen (Needs of) name other →
      other ∈ ordered ∧ ordered.idxOf other < ordered.idxOf name := by
    intro name other hname hway
    induction hway with
    | single hneed => exact hneeds name hname _ hneed
    | tail _ hneed ih =>
      obtain ⟨hother, hlt⟩ := ih
      obtain ⟨hmem, hlt'⟩ := hneeds _ hother _ hneed
      exact ⟨hmem, hlt'.trans hlt⟩
  refine fun name hname => ⟨hmem name hname, fun hcycle => ?_⟩
  exact absurd (hless name name (hmem name hname) hcycle).2 (Nat.lt_irrefl _)

/-- The platforms that can be found in a tree. -/
def platformIn (tree : FileTree) (root target : String) (packages : List String) (name : String) : Platform :=
  (platform? tree root target packages name).getD { directory := "", manifest := {}, needs := [] }

theorem isBuildable_of_ordered {tree : FileTree} {root target : String} {packages ordered : List String}
    (hpackages : (Build.packages tree root).toOption = some packages)
    (hspecial : ({} : Manifest).platformRequires target = .ok (.arr []))
    (htarget : target ∈ ordered ∧
      (platformIn tree root target packages target).manifest.standalone.toOption.any Json.isTruthy = true)
    (hneeds : ∀ name ∈ ordered, (platform? tree root target packages name).isSome ∧
      ∀ need ∈ (platformIn tree root target packages name).needs,
        need ∈ ordered ∧ ordered.idxOf need < ordered.idxOf name) :
    IsBuildable tree root target {} packages [target] (platformIn tree root target packages) ∧
      ∀ name, Reached (platformIn tree root target packages) [target] name → name ∈ ordered := by
  have hreached := @reached_and_acyclic _ [target] _ (by simpa using htarget.1) fun name hname => (hneeds name hname).2
  obtain ⟨value, hvalue, htruthy⟩ := Option.any_eq_true _ _ |>.1 htarget.2
  refine ⟨⟨⟨eq_ok_of_toOption hpackages, ⟨[], [], rfl, hspecial, rfl⟩, fun name hname => ?_,
    value, eq_ok_of_toOption hvalue, htruthy⟩, fun name hname => (hreached name hname).2⟩,
    fun name hname => (hreached name hname).1⟩
  obtain ⟨platform, hplatform⟩ := Option.isSome_iff_exists.1 (hneeds name (hreached name hname).1).1
  rw [platformIn, hplatform]
  exact isFound_of_platform? hplatform

/-- A platform that needs two others, of which one needs the other; both set a property, and a fourth has two names for
one. -/
def televisionFiles : FileTree :=
  .dir [("qml", .dir [("platform", .dir [
    ("box", .dir [(".manifest", .file "\x7b\"requires\":[\"js\",\"./js\"]\x7d")]),
    ("js", .dir [(".manifest", .file "\x7b\"properties.mode\":\"js\"\x7d")]),
    ("tv", .dir [(".manifest", .file "\x7b\"requires\":[\"js\",\"web\"]\x7d")]),
    ("web", .dir [(".manifest", .file "\x7b\"requires\":[\"js\"],\"properties.mode\":\"web\"\x7d")])])])]

def televisionPackages : List String := ["./qml", "qml/platform"]

def televisionPlatform : String → Platform := platformIn televisionFiles "qml" "tv" televisionPackages

theorem isBuildable_television :
    IsBuildable televisionFiles "qml" "tv" {} televisionPackages ["tv"] televisionPlatform ∧
      ∀ name, Reached televisionPlatform ["tv"] name → name ∈ ["js", "web", "tv"] :=
  isBuildable_of_ordered (by decide +kernel) rfl (by decide +kernel) (by decide +kernel)

theorem plan_in_order_television :
    IsBuildable televisionFiles "qml" "tv" {} televisionPackages ["tv"] televisionPlatform ∧
    ∃ result, ((plan "qml" "tv" {}).runIn { tree := televisionFiles }).1 = .ok result ∧
      result.platforms = ["tv", "js", "web"] ∧
      result.directories = ["qml/platform/js", "qml/platform/web", "qml/platform/tv"] ∧
      (result.directories.map Path.simplified).Nodup ∧ Reached televisionPlatform ["tv"] "web" := by
  obtain ⟨hbuildable, hnames⟩ := isBuildable_television
  obtain ⟨result, ordered, hplan, -, -, hmem, -, hperm, -, honce⟩ :=
    plan_in_order { tree := televisionFiles } hbuildable
  have hresult : ((plan "qml" "tv" {}).runIn { tree := televisionFiles }).1.toOption.map (fun result =>
      (result.platforms, result.directories)) =
      some (["tv", "js", "web"], ["qml/platform/js", "qml/platform/web", "qml/platform/tv"]) := by decide +kernel
  rw [hplan] at hresult
  obtain ⟨hplatforms, hdirectories⟩ := Prod.mk.inj (Option.some.inj hresult)
  have hnamed : ∀ name ∈ ["js", "web", "tv"], Path.IsName name := by decide +kernel
  refine ⟨hbuildable, result, hplan, hplatforms, hdirectories, honce fun name hname => hnamed name (hnames name hname),
    (hmem "web").1 (hperm.mem_iff.1 ?_)⟩
  rw [hplatforms]
  decide

/-- Two names of one directory: it is planned twice, though no platform needs itself. -/
theorem plan_twice :
    IsBuildable televisionFiles "qml" "box" {} televisionPackages ["box"]
      (platformIn televisionFiles "qml" "box" televisionPackages) ∧
    ((plan "qml" "box" {}).runIn { tree := televisionFiles }).1.toOption.map (·.directories) =
      some ["qml/platform/js", "qml/platform/./js", "qml/platform/box"] ∧
    Path.simplified "qml/platform/js" = Path.simplified "qml/platform/./js" := by
  have hneeds : ∀ name ∈ ["js", "./js", "box"],
      (platform? televisionFiles "qml" "box" televisionPackages name).isSome ∧
        ∀ need ∈ (platformIn televisionFiles "qml" "box" televisionPackages name).needs,
          need ∈ ["js", "./js", "box"] ∧ ["js", "./js", "box"].idxOf need < ["js", "./js", "box"].idxOf name := by
    decide +kernel
  have hbuildable := isBuildable_of_ordered (by decide +kernel) rfl (by decide +kernel) hneeds
  exact ⟨hbuildable.1, by decide +kernel, by decide +kernel⟩

end QmlScript.Build
