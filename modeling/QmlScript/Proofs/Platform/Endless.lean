import QmlScript.Proofs.Platform.Order

/-!
# Platforms without an order

Platforms are met in rounds until all are ready. The rounds come to an end exactly if no platform needs itself,
directly or not. Platforms that do need themselves are met again and again, and there is never a plan.
-/

namespace QmlScript.Build

open Job Relation List

variable {of : String → Platform} {names : List String} {state : Unrolled}

def Unrolled.round (state : Unrolled) : Unrolled := state.needs.keys.foldl meet state

def Unrolled.IsDone (state : Unrolled) : Prop := state.needs.entries = []

/-- There is no result if none of the rounds is the last one. -/
theorem unroll_eq_none_iff (bound : Nat) (state : Unrolled) :
    unroll bound state = none ↔ ∀ n ≤ bound, ¬(Unrolled.round^[n] state).IsDone := by
  induction bound generalizing state with
  | zero =>
    rw [unroll]
    by_cases hdone : state.needs.entries = [] <;> simp [Unrolled.IsDone, hdone]
  | succ bound ih =>
    rw [unroll]
    by_cases hdone : state.needs.entries = []
    · simp only [hdone, isEmpty_nil, if_true, reduceCtorEq, false_iff]
      exact fun h => h 0 (Nat.zero_le _) hdone
    · rw [if_neg (by simpa using hdone), ih]
      constructor
      · rintro h (_ | n) hn
        · exact hdone
        · exact h n (Nat.le_of_succ_le_succ hn)
      · exact fun h n hn => h (n + 1) (Nat.succ_le_succ hn)

theorem IsUnrolled.iterate_round (h : IsUnrolled of names state) (n : Nat) :
    IsUnrolled of names (Unrolled.round^[n] state) := by
  induction n with
  | zero => exact h
  | succ n ih =>
    rw [Function.iterate_succ_apply']
    exact (ih.round ih.keys fun _ => id).1

/-- When all are ready, each stands behind its needs, so none needs itself. -/
theorem IsUnrolled.acyclic (h : IsUnrolled of names state) (hdone : state.IsDone) :
    ∀ name ∈ names, ¬TransGen (Needs of) name name := by
  have hready : ∀ name ∈ names, name ∈ state.ready := fun name hname =>
    ((h.mem_iff name).1 hname).resolve_right (by rw [Table.keys, hdone]; exact not_mem_nil)
  refine fun name hname => (reached_and_acyclic hready (fun other hother need hneed => ?_) name
    (.first hname)).2
  obtain ⟨front, back, hsplit⟩ := append_of_mem hother
  have hfront := h.ordered front other back hsplit need hneed
  have hnodup := h.ready
  rw [hsplit] at hnodup ⊢
  have hnew : other ∉ front := fun hmem => (nodup_append.1 hnodup).2.2 other hmem other mem_cons_self rfl
  rw [idxOf_append_of_mem hfront, idxOf_append_of_notMem hnew, idxOf_cons_self]
  exact ⟨mem_append_left _ hfront, Nat.lt_add_right 0 (idxOf_lt_length_iff.2 hfront)⟩

theorem eq_endless_of_order {platforms : Platforms} {e : BuildError} (h : order platforms = .error e) :
    e = .endlessPlatforms := by
  unfold order at h
  split at h <;> cases h
  rfl

section

variable (hnames : names.Nodup) (hclosed : ∀ name ∈ names, ∀ need ∈ (of name).needs, need ∈ names)
include hnames hclosed

theorem exists_done_iff :
    (∃ n, (Unrolled.round^[n] { needs := (Platforms.ofNames of names).needs }).IsDone) ↔
      ∀ name ∈ names, ¬TransGen (Needs of) name name := by
  constructor
  · rintro ⟨n, hdone⟩
    exact ((IsUnrolled.init hnames).iterate_round n).acyclic hdone
  · intro hacyclic
    obtain ⟨state, hunroll, -⟩ := (IsUnrolled.init hnames).exists_unroll hclosed hacyclic le_rfl
    by_contra hnone
    rw [(unroll_eq_none_iff _ _).2 fun n _ hdone => hnone ⟨n, hdone⟩] at hunroll
    cases hunroll

theorem order_eq_error_iff :
    order (.ofNames of names) = .error .endlessPlatforms ↔ ∃ name ∈ names, TransGen (Needs of) name name := by
  constructor
  · intro herror
    by_contra hacyclic
    obtain ⟨state, hok, -⟩ := exists_order hnames hclosed fun name hname hcycle => hacyclic ⟨name, hname, hcycle⟩
    rw [hok] at herror
    cases herror
  · rintro ⟨name, hname, hcycle⟩
    rw [order, (unroll_eq_none_iff _ _).2 fun n _ hdone =>
      (exists_done_iff hnames hclosed).1 ⟨n, hdone⟩ name hname hcycle]

end

/-- The rounds in which platforms are put into an order come to an end, and there is a plan, exactly if no
platform that can be reached needs itself. If one does, the rounds go on for ever. -/
theorem plan_ends_iff {root target : String} {manifest : Manifest} {packages start : List String} (w : Workspace)
    (h : IsSupplied w.tree root target manifest packages start of) :
    ((∃ n, (Unrolled.round^[n] { needs := (Platforms.ofNames of (discovered of w.tree target start)).needs }).IsDone) ↔
      ∀ name, Reached of start name → ¬TransGen (Needs of) name name) ∧
    ((∃ result, ((plan root target manifest).runIn w).1 = .ok result) ↔
      ∀ name, Reached of start name → ¬TransGen (Needs of) name name) ∧
    (((plan root target manifest).runIn w).1 = .error .endlessPlatforms ↔
      ∃ name, Reached of start name ∧ TransGen (Needs of) name name) := by
  have hsearched := isSearched_discovered h.found
  have hreached := hsearched.mem_iff
  have hclosed : ∀ name ∈ discovered of w.tree target start, ∀ need ∈ (of name).needs,
      need ∈ discovered of w.tree target start := fun name hname need hneed =>
    (hreached need).2 (((hreached name).1 hname).need hneed)
  have hends := exists_done_iff hsearched.nodup hclosed
  have herror := order_eq_error_iff hsearched.nodup hclosed
  simp only [hreached] at hends herror
  obtain ⟨templates, hplan⟩ := h.answer_plan
  rw [(Looks.runIn_eq w).1, hplan]
  cases horder : order (.ofNames of (discovered of w.tree target start)) with
  | ok state =>
    rw [horder] at herror
    have hacyclic : ∀ name, Reached of start name → ¬TransGen (Needs of) name name := fun name hname hcycle =>
      nomatch herror.2 ⟨name, hname, hcycle⟩
    exact ⟨hends, iff_of_true ⟨_, rfl⟩ hacyclic, iff_of_false (fun h => nomatch h) fun h => nomatch herror.2 h⟩
  | error e =>
    obtain rfl := eq_endless_of_order horder
    obtain ⟨name, hname, hcycle⟩ := herror.1 horder
    exact ⟨hends, iff_of_false (fun h => nomatch h.choose_spec) fun hacyclic => hacyclic name hname hcycle,
      iff_of_true rfl ⟨name, hname, hcycle⟩⟩

theorem plan_ends_television :
    IsSupplied televisionFiles "qml" "tv" {} televisionPackages ["tv"] televisionPlatform ∧
    ∃ result, ((plan "qml" "tv" {}).runIn { tree := televisionFiles }).1 = .ok result :=
  ⟨isBuildable_television.1.toIsSupplied,
    (plan_ends_iff { tree := televisionFiles } isBuildable_television.1.toIsSupplied).2.1.2
      isBuildable_television.1.acyclic⟩

/-- Two platforms that need each other. -/
def circleFiles : FileTree :=
  .dir [("qml", .dir [("platform", .dir [
    ("tv", .dir [(".manifest", .file "\x7b\"requires\":[\"web\"]\x7d")]),
    ("web", .dir [(".manifest", .file "\x7b\"requires\":[\"tv\"]\x7d")])])])]

def circleNeeds : Table String NameSet := ⟨[("tv", ["web"]), ("web", ["tv"])]⟩

theorem needs_iterate_round_circle (n : Nat) : (Unrolled.round^[n] { needs := circleNeeds }).needs = circleNeeds := by
  have hround : ∀ state : Unrolled, state.needs = circleNeeds → state.round.needs = circleNeeds := by
    rintro ⟨met, ready, needs⟩ rfl
    rfl
  induction n with
  | zero => rfl
  | succ n ih => rw [Function.iterate_succ_apply', hround _ ih]

theorem endless_circle :
    (answer circleFiles (discover "qml" "tv" ["qml/platform"] 9 {} [.str "tv"])).toOption.map (·.needs.entries) =
        some circleNeeds.entries ∧
      (∀ n, ¬(Unrolled.round^[n] { needs := circleNeeds }).IsDone) ∧
      (answer circleFiles (plan "qml" "tv" {})).toBool = false := by
  refine ⟨by decide +kernel, fun n hdone => ?_, by decide +kernel⟩
  rw [Unrolled.IsDone, needs_iterate_round_circle] at hdone
  cases hdone

end QmlScript.Build
