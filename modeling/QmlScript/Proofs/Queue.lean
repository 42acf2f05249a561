import Mathlib.Data.List.Perm.Subperm
import QmlScript.Proofs.Marking

/-!
# The queue of sections

What waits in a round is the queue and behind it the components that were marked since and have no section
yet. Nothing gets lost, and the rounds end: each new section takes one of finitely many components, and
between two of them the first name without a section comes closer to the front.
-/

namespace QmlScript.Registry

open List Table

variable {name : String} {c : Component} {r P : Registry}

/-- Generate the section of a component over `P`, with nothing marked. -/
def sectionRun (P : Registry) (name : String) : Except Error String × Registry :=
  run (component name >>= sectionText) P.unmarked

def baseRun (P : Registry) (name : String) : Except Error String × Registry :=
  run (component name >>= baseOf) P.unmarked

/-- The components that are resolved for the section of a component. -/
def resolvedBy (P : Registry) (name : String) : NameSet := (sectionRun P name).2.usedComponents

theorem run_component_ok {s : Registry} (h : run (component name) r = (.ok c, s)) :
    r.components.get? name = some c ∧ s = r := by
  rw [run_component_eq] at h
  cases hget : r.components.get? name <;> rw [hget] at h <;> cases h
  exact ⟨rfl, rfl⟩

theorem run_component_bind {α : Type} (h : r.components.get? name = some c) (f : Component → Work α) :
    run (component name >>= f) r = run (f c) r := by
  rw [run_bind, run_component_eq, h]

/-- Taking `name` from the queue resolves its base, and generates its section unless it is there. -/
structure Taken (P : Registry) (sections sections' : Sections) (name base : String) (r : Registry) :
    Prop where
  known : name ∈ P.components.keys
  base_eq : (baseRun P name).1 = .ok base
  base_used : base = root ∨ base ∈ r.usedComponents
  bases : sections'.bases = sections.bases.insert name base
  bare : r.bare = P.bare
  ordered : NameSet.Ordered r.usedComponents
  declared : ∀ other ∈ r.usedComponents, other ∈ P.declaredNames
  marked : ∀ other ∈ r.usedComponents, other = base ∨ other ∈ resolvedBy P name
  code : (sections.has name = true ∧ sections'.code = sections.code ∧ r.usedComponents.length ≤ 1) ∨
    (sections.has name = false ∧ ∃ code, (sectionRun P name).1 = .ok code ∧
      sections'.code = sections.code.insert name code ∧
      ∀ other ∈ resolvedBy P name, other ∈ r.usedComponents)

theorem run_baseOf_unmarked {r₁ : Registry} {base : String} (hr : r.bare = P.bare) (hnone : r.usedComponents = [])
    (h : run (baseOf c) r = (.ok base, r₁)) :
    ∃ s, run (baseOf c) P.unmarked = (.ok base, s) ∧ Marking P [] r₁ s ∧
      (base = root ∨ base ∈ r₁.usedComponents) ∧ (r₁.usedComponents = [] ∨ r₁.usedComponents = [base]) := by
  have ho : NameSet.Ordered r.usedComponents := by rw [hnone]; exact List.Pairwise.nil
  obtain ⟨s, hs, hm⟩ := Resolves.run_ok hr ho h
  rw [hnone] at hm
  refine ⟨s, hs, hm, ?_⟩
  rcases run_find_ok h with ⟨hroot, rfl⟩ | ⟨_, rfl⟩
  · exact ⟨Or.inl hroot, .inl hnone⟩
  · exact ⟨Or.inr (by simp [use]), .inr (by simp [use, hnone, NameSet.add, insertOrdered])⟩

theorem generateSection_taken {r' : Registry} {sections sections' : Sections} (hr : r.bare = P.bare)
    (hnone : r.usedComponents = []) (h : run (generateSection sections name) r = (.ok sections', r')) :
    ∃ base, Taken P sections sections' name base r' := by
  unfold generateSection at h
  obtain ⟨c, s, hc, h₁⟩ := run_bind_ok h
  obtain ⟨hget, rfl⟩ := run_component_ok hc
  obtain ⟨base, r₁, hb, h₂⟩ := run_bind_ok h₁
  obtain ⟨u, hu, hm, hbase, hmarks⟩ := run_baseOf_unmarked hr hnone hb
  have hmarked : ∀ other ∈ r₁.usedComponents, other = base := by
    rcases hmarks with hmarks | hmarks <;> simp [hmarks]
  have hP : P.unmarked.components.get? name = some c := by
    rw [← hget]
    exact congrArg (fun t => t.get? name) (components_eq_of_bare hr.symm)
  have hknown : name ∈ P.components.keys := (mem_keys_iff _ _).mpr ⟨c, hP⟩
  have hbaseRun : (baseRun P name).1 = .ok base := by
    rw [baseRun, run_component_bind hP, hu]
  refine ⟨base, ?_⟩
  dsimp only at h₂
  split at h₂
  · -- the section is there
    rename_i hhas
    obtain ⟨hsec, rfl⟩ := Prod.mk.inj h₂
    cases hsec
    exact ⟨hknown, hbaseRun, hbase, rfl, hm.left, hm.left_ordered,
      fun other ho => hm.declared other (((hm.mem other).mp ho).resolve_left (by simp)),
      fun other ho => .inl (hmarked other ho), Or.inl ⟨hhas, rfl, by rcases hmarks with h | h <;> simp [h]⟩⟩
  · -- the section is new
    rename_i hhas
    obtain ⟨code, r₂, hcode, h₃⟩ := run_bind_ok h₂
    obtain ⟨hsec, rfl⟩ := Prod.mk.inj h₃
    cases hsec
    obtain ⟨v, hv, hm'⟩ := Resolves.run_ok hm.left hm.left_ordered hcode
    have hrun : sectionRun P name = (.ok code, v) := by rw [sectionRun, run_component_bind hP, hv]
    refine ⟨hknown, hbaseRun, hbase.imp_right fun hb => (hm'.mem base).mpr (.inl hb), rfl, hm'.left,
      hm'.left_ordered, fun other ho => ?_, fun other ho => ?_,
      Or.inr ⟨Bool.eq_false_iff.mpr hhas, code, by rw [hrun], rfl, ?_⟩⟩
    · rcases (hm'.mem other).mp ho with ho | ho
      · exact hm.declared other (((hm.mem other).mp ho).resolve_left (by simp))
      · exact hm'.declared other ho
    · rw [resolvedBy, hrun]
      exact ((hm'.mem other).mp ho).imp_left (hmarked other)
    · intro other ho
      rw [resolvedBy, hrun] at ho
      exact (hm'.mem other).mpr (.inr ho)

/-! ## Nothing gets lost -/

theorem Sections.has_iff (sections : Sections) (name : String) :
    sections.has name = true ↔ name = root ∨ name ∈ sections.code.keys := by
  simp [Sections.has, Table.contains_iff]

/-- The queue, and behind it marked components without a section. -/
def waiting (queue : List String) (sections : Sections) (r : Registry) : List String :=
  queue ++ r.usedComponents.filter fun name => !sections.has name

def missing (P : Registry) (sections : Sections) : Nat :=
  (P.components.keys.filter fun name => !sections.has name).length

/-- Between two rounds: what is `wanted`, resolved by sections or a base has a section or waits; `width` bounds what
can ever wait. -/
structure Progress (P : Registry) (wanted : List String) (width : Nat) (queue : List String)
    (sections : Sections) : Prop where
  keys : sections.bases.keys = sections.code.keys
  code : ∀ name code, sections.code.get? name = some code → (sectionRun P name).1 = .ok code
  base : ∀ name base, sections.bases.get? name = some base → (baseRun P name).1 = .ok base
  rootless : root ∉ sections.code.keys ∧ root ∉ queue
  wanted : ∀ name ∈ wanted, sections.has name = true ∨ name ∈ queue
  closed : ∀ name ∈ sections.code.keys, ∀ other,
    other ∈ resolvedBy P name ∨ (baseRun P name).1 = .ok other →
      sections.has other = true ∨ other ∈ queue
  narrow : queue.length + missing P sections * P.declaredNames.length < width

section Round

variable {P r : Registry} {wanted : List String} {width : Nat} {name base : String}
  {queue : List String} {sections sections' : Sections} {other : String}

theorem Taken.has (h : Taken P sections sections' name base r) (other : String) :
    sections'.has other = true ↔ other = name ∨ sections.has other = true := by
  rw [Sections.has_iff, Sections.has_iff]
  rcases h.code with ⟨hhas, hcode, _⟩ | ⟨_, code, _, hcode, _⟩
  · rw [hcode]
    constructor
    · exact Or.inr
    · rintro (rfl | ho)
      · exact (Sections.has_iff _ _).mp hhas
      · exact ho
  · rw [hcode, mem_keys_insert]
    exact or_left_comm

theorem Taken.kept (h : Taken P sections sections' name base r)
    (ho : sections.has other = true ∨ other ∈ name :: queue) :
    sections'.has other = true ∨ other ∈ waiting queue sections' r := by
  rcases ho with ho | ho
  · exact Or.inl ((h.has other).mpr (.inr ho))
  · rcases mem_cons.mp ho with rfl | ho
    · exact Or.inl ((h.has other).mpr (.inl rfl))
    · exact Or.inr (mem_append_left _ ho)

theorem marked_waits (ho : other ∈ r.usedComponents) :
    sections'.has other = true ∨ other ∈ waiting queue sections' r := by
  by_cases hhas : sections'.has other = true
  · exact Or.inl hhas
  · exact Or.inr (mem_append_right _ (mem_filter.mpr ⟨ho, by simp [hhas]⟩))

section

variable (h : Taken P sections sections' name base r)
include h

theorem Taken.missing_lt (hnew : sections.has name = false) : missing P sections' < missing P sections := by
  have hfilter : (P.components.keys.filter fun n => !sections'.has n) =
      (P.components.keys.filter fun n => !sections.has n).filter fun n => !sections'.has n := by
    rw [filter_filter]
    refine filter_congr fun n _ => ?_
    have hn := h.has n
    cases hs : sections.has n <;> cases hs' : sections'.has n <;> simp_all
  unfold missing
  rw [hfilter]
  refine length_filter_lt_length_iff_exists.mpr ⟨name, ?_, ?_⟩
  · exact mem_filter.mpr ⟨h.known, by simp [hnew]⟩
  · simp [(h.has name).mpr (.inl rfl)]

theorem Taken.used_length_le : r.usedComponents.length ≤ P.declaredNames.length :=
  (h.ordered.nodup.subperm h.declared).length_le

/-- A round without a new section leaves the sections, up to the base resolved again. -/
theorem Taken.has_of_old
    (hold : sections.has name = true) (other : String) : sections'.has other = sections.has other := by
  rw [Bool.eq_iff_iff, h.has]
  constructor
  · rintro (rfl | ho)
    · exact hold
    · exact ho
  · exact Or.inr

theorem Taken.missing_of_old (hold : sections.has name = true) : missing P sections' = missing P sections := by
  unfold missing
  simp only [h.has_of_old hold]

theorem Taken.narrow (hn : (name :: queue).length + missing P sections * P.declaredNames.length < width) :
    (waiting queue sections' r).length + missing P sections' * P.declaredNames.length < width := by
  have hfilter := length_filter_le (fun n => !sections'.has n) r.usedComponents
  simp only [waiting, length_append, length_cons] at hn ⊢
  rcases h.code with ⟨hold, _, hlen⟩ | ⟨hnew, _⟩
  · rw [h.missing_of_old hold]
    omega
  · have hused := h.used_length_le
    have hlt := h.missing_lt hnew
    have hmul : (missing P sections' + 1) * P.declaredNames.length ≤
        missing P sections * P.declaredNames.length := Nat.mul_le_mul_right _ hlt
    rw [Nat.succ_mul] at hmul
    omega

theorem Taken.progress (hp : Progress P wanted width (name :: queue) sections) :
    Progress P wanted width (waiting queue sections' r) sections' := by
  have hname : name ≠ root := fun hn => hp.rootless.2 (hn ▸ mem_cons_self)
  have hbase : ∀ n b, sections'.bases.get? n = some b → (baseRun P n).1 = .ok b := by
    intro n b hb
    rw [h.bases, get?_insert] at hb
    split at hb
    · rename_i heq
      rw [← heq, ← Option.some.inj hb]
      exact h.base_eq
    · exact hp.base n b hb
  have hwait : root ∉ waiting queue sections' r := by
    intro hroot
    rcases mem_append.mp hroot with hq | hu
    · exact hp.rootless.2 (mem_cons_of_mem _ hq)
    · have := (mem_filter.mp hu).2
      rw [(Sections.has_iff _ _).mpr (.inl rfl)] at this
      simp at this
  rcases h.code with ⟨hold, hcode, _⟩ | ⟨hnew, code, hsec, hcode, hres⟩
  · have hin : name ∈ sections.code.keys := ((Sections.has_iff _ _).mp hold).resolve_left hname
    refine ⟨?_, ?_, hbase, ⟨?_, hwait⟩, fun n hn => h.kept (hp.wanted n hn), ?_, h.narrow hp.narrow⟩
    · rw [h.bases, keys_insert_of_mem (hp.keys ▸ hin), hcode]
      exact hp.keys
    · rw [hcode]; exact hp.code
    · rw [hcode]; exact hp.rootless.1
    · intro n hn other ho
      rw [hcode] at hn
      exact h.kept (hp.closed n hn other ho)
  · refine ⟨?_, ?_, hbase, ⟨?_, hwait⟩, fun n hn => h.kept (hp.wanted n hn), ?_, h.narrow hp.narrow⟩
    · rw [h.bases, hcode, keys_insert, keys_insert, hp.keys]
    · intro n c hc
      rw [hcode, get?_insert] at hc
      split at hc
      · rename_i heq
        rw [← heq, ← Option.some.inj hc]
        exact hsec
      · exact hp.code n c hc
    · rw [hcode, mem_keys_insert]
      rintro (hroot | hroot)
      · exact hname hroot.symm
      · exact hp.rootless.1 hroot
    · intro n hn other ho
      rw [hcode, mem_keys_insert] at hn
      rcases hn with rfl | hn
      · rcases ho with ho | ho
        · exact marked_waits (hres other ho)
        · obtain rfl := Except.ok.inj (h.base_eq.symm.trans ho)
          rcases h.base_used with hroot | hused
          · exact Or.inl ((Sections.has_iff _ _).mpr (.inl hroot))
          · exact marked_waits hused
      · exact h.kept (hp.closed n hn other ho)

end

/-! ## The rounds come to an end -/

/-- How far the next new section is: the position of the first name without one, or more than any position. -/
def distance (sections : Sections) (width : Nat) (queue : List String) : Nat :=
  let position := queue.findIdx fun name => !sections.has name
  if position < queue.length then position else width + queue.length

theorem distance_le (sections : Sections) (width : Nat) (queue : List String) :
    distance sections width queue ≤ width + queue.length := by
  simp only [distance]
  split <;> omega

/-- A round without a new section brings the next one closer: at most one name joins at the end. -/
theorem distance_lt_of_old (hold : sections.has name = true) (hhas : ∀ n, sections'.has n = sections.has n)
    (joining : List String) (hone : joining.length ≤ 1) (hj : ∀ n ∈ joining, sections.has n = false) :
    distance sections' width (queue ++ joining) < distance sections width (name :: queue) := by
  have hcons : (name :: queue).findIdx (fun n => !sections.has n) = queue.findIdx (fun n => !sections.has n) + 1 := by
    simp [findIdx_cons, hold]
  simp only [distance, hhas, hcons, findIdx_append, length_append, length_cons]
  by_cases hi : queue.findIdx (fun n => !sections.has n) < queue.length
  · simp only [if_pos hi]
    rw [if_pos (by omega), if_pos (by omega)]
    omega
  · simp only [if_neg hi]
    rw [if_neg (show ¬ _ + 1 < queue.length + 1 by omega)]
    rcases joining with _ | ⟨n, _ | ⟨_, _⟩⟩
    · simp
    · have hn := hj n (by simp)
      simp [findIdx_cons, hn]
      omega
    · simp at hone

def roundsLeft (P : Registry) (width : Nat) (queue : List String) (sections : Sections) : Nat :=
  missing P sections * (2 * width) + distance sections width queue

theorem Taken.roundsLeft_lt (h : Taken P sections sections' name base r)
    (hn : (name :: queue).length + missing P sections * P.declaredNames.length < width) :
    roundsLeft P width (waiting queue sections' r) sections' < roundsLeft P width (name :: queue) sections := by
  unfold roundsLeft
  rcases h.code with ⟨hold, _, hlen⟩ | ⟨hnew, _⟩
  · rw [h.missing_of_old hold]
    refine Nat.add_lt_add_left (distance_lt_of_old hold (h.has_of_old hold) _ ?_ ?_) _
    · exact (length_filter_le _ _).trans hlen
    · intro n hn
      have hout := (mem_filter.mp hn).2
      rw [h.has_of_old hold] at hout
      simpa using hout
  · have hlt := h.missing_lt hnew
    have hnarrow := h.narrow hn
    have hdist := distance_le sections' width (waiting queue sections' r)
    have hmul : (missing P sections' + 1) * (2 * width) ≤ missing P sections * (2 * width) :=
      Nat.mul_le_mul_right _ hlt
    rw [Nat.succ_mul] at hmul
    omega

end Round

theorem run_generateQueue_succ (bound : Nat) (queue : List String) (sections : Sections) (r : Registry) :
    run (generateQueue (bound + 1) queue sections) r =
      if queue.isEmpty && r.usedComponents.isEmpty then (.ok sections, r)
      else
        match waiting queue sections r with
        | [] => run (generateQueue bound [] sections) r.unmarked
        | name :: queue => run (generateSection sections name >>= generateQueue bound queue) r.unmarked := by
  simp only [generateQueue, run_bind, run_get]
  split
  · rfl
  · simp only [run_bind, run_modify, waiting]
    cases queue ++ r.usedComponents.filter fun name => !sections.has name with
    | nil => rfl
    | cons name queue => rw [run_bind]; rfl

/-- What the loop has between two rounds. -/
structure Loop where
  queue : List String
  sections : Sections
  registry : Registry

namespace Loop

def waiting (l : Loop) : List String := Registry.waiting l.queue l.sections l.registry

def isOver (l : Loop) : Bool := l.queue.isEmpty && l.registry.usedComponents.isEmpty

/-- Nothing waits, or the component that waits first is refused. -/
inductive Stops (l : Loop) : Except Error Sections × Registry → Prop
  | ended (h : l.isOver = true) : Stops l (.ok l.sections, l.registry)
  | refused {name : String} {queue : List String} {e : Error} {r : Registry} (hwaiting : l.waiting = name :: queue)
      (hrun : run (generateSection l.sections name) l.registry.unmarked = (.error e, r)) : Stops l (.error e, r)

end Loop

/-- What a round does: one that takes no new component only drops marks of those with sections. -/
inductive Event
  | generated (name : String)
  | repeated (name : String)
  | dropped

inductive Round : Loop → Event → Loop → Prop
  | take {l : Loop} {name : String} {queue : List String} {sections : Sections} {r : Registry}
      (hwaiting : l.waiting = name :: queue)
      (hrun : run (generateSection l.sections name) l.registry.unmarked = (.ok sections, r)) :
      Round l (if l.sections.has name then .repeated name else .generated name) ⟨queue, sections, r⟩
  | drop {l : Loop} (hopen : l.isOver = false) (hwaiting : l.waiting = []) :
      Round l .dropped ⟨[], l.sections, l.registry.unmarked⟩

/-- Rounds one after the other. -/
inductive Rounds : Loop → List Event → Loop → Prop
  | nil (l : Loop) : Rounds l [] l
  | cons {l next last : Loop} {event : Event} {events : List Event} (h : Round l event next)
      (hrest : Rounds next events last) : Rounds l (event :: events) last

/-- The loop works with the knowledge of `P` and loses nothing. -/
structure Loop.Goes (P : Registry) (wanted : List String) (width : Nat) (l : Loop) : Prop where
  bare : l.registry.bare = P.bare
  progress : Progress P wanted width l.waiting l.sections

def Loop.roundsLeft (P : Registry) (width : Nat) (l : Loop) : Nat :=
  if l.isOver then 0 else Registry.roundsLeft P width l.waiting l.sections + 1

section

variable {wanted : List String} {width : Nat} {l next last : Loop} {event : Event} {events : List Event}
  {sections : Sections}

theorem Loop.isOver_eq_false (h : l.waiting ≠ []) : l.isOver = false := by
  refine Bool.eq_false_iff.mpr fun hover => h ?_
  obtain ⟨hq, hu⟩ := Bool.and_eq_true_iff.mp hover
  rw [waiting, Registry.waiting, List.isEmpty_iff.mp hq, List.isEmpty_iff.mp hu]
  rfl

theorem Loop.Goes.taken (h : l.Goes P wanted width)
    (hrun : run (generateSection l.sections name) l.registry.unmarked = (.ok sections, r)) :
    ∃ base, Taken P l.sections sections name base r :=
  generateSection_taken (show l.registry.unmarked.bare = P.bare from h.bare) rfl hrun

theorem Round.goes (h : Round l event next) (hl : l.Goes P wanted width) :
    next.Goes P wanted width ∧ next.roundsLeft P width < l.roundsLeft P width := by
  have hp := hl.progress
  cases h with
  | take hwaiting hrun =>
    obtain ⟨base, ht⟩ := hl.taken hrun
    rw [hwaiting] at hp
    have hlt := ht.roundsLeft_lt hp.narrow
    refine ⟨⟨ht.bare, ht.progress hp⟩, ?_⟩
    rw [Loop.roundsLeft, Loop.roundsLeft, Loop.isOver_eq_false (l := l) (by simp [hwaiting]), hwaiting]
    split
    · exact Nat.succ_pos _
    · exact Nat.succ_lt_succ hlt
  | drop hopen hwaiting =>
    rw [hwaiting] at hp
    refine ⟨⟨hl.bare, hp⟩, ?_⟩
    rw [Loop.roundsLeft, Loop.roundsLeft, hopen]
    exact Nat.succ_pos _

theorem Rounds.goes (h : Rounds l events last) (hl : l.Goes P wanted width) :
    last.Goes P wanted width ∧ events.length + last.roundsLeft P width ≤ l.roundsLeft P width := by
  induction h with
  | nil l => exact ⟨hl, by simp⟩
  | cons h _ ih =>
    obtain ⟨hnext, hlt⟩ := h.goes hl
    obtain ⟨hlast, hle⟩ := ih hnext
    refine ⟨hlast, ?_⟩
    rw [List.length_cons]
    omega

/-- The queue is worked off by enough rounds, by induction on the bound of those left. -/
theorem exists_rounds (bound : Nat) (hl : l.Goes P wanted width) (hb : l.roundsLeft P width ≤ bound) :
    ∃ events last, Rounds l events last ∧ last.Stops (run (generateQueue bound l.queue l.sections) l.registry) := by
  induction bound generalizing l with
  | zero =>
    have hover : l.isOver = true := by
      rw [Loop.roundsLeft] at hb
      split at hb
      · assumption
      · omega
    exact ⟨[], l, .nil l, .ended hover⟩
  | succ bound ih =>
    -- one round, and the rest by induction
    have hround : ∀ {event next}, Round l event next → ∃ events last, Rounds l events last ∧
        last.Stops (run (generateQueue bound next.queue next.sections) next.registry) := by
      intro event next h
      obtain ⟨hnext, hlt⟩ := h.goes hl
      obtain ⟨events, last, hrest, hstops⟩ := ih hnext (by omega)
      exact ⟨event :: events, last, .cons h hrest, hstops⟩
    rw [run_generateQueue_succ]
    split
    · rename_i hover
      exact ⟨[], l, .nil l, .ended hover⟩
    · rename_i hopen
      cases hwaiting : waiting l.queue l.sections l.registry with
      | nil => exact hround (.drop (Bool.eq_false_iff.mpr hopen) hwaiting)
      | cons name queue =>
        dsimp only
        rw [run_bind]
        rcases hrun : run (generateSection l.sections name) l.registry.unmarked with ⟨e | sections, r⟩
        · exact ⟨[], l, .nil l, .refused hwaiting hrun⟩
        · exact hround (.take hwaiting hrun)

/-- If the queue is worked off, nothing waits in the end. -/
theorem generateQueue_progress {bound : Nat} (hl : l.Goes P wanted width) (hb : l.roundsLeft P width ≤ bound)
    (h : run (generateQueue bound l.queue l.sections) l.registry = (.ok sections, r)) :
    Progress P wanted width [] sections := by
  obtain ⟨events, last, hrounds, hstops⟩ := exists_rounds bound hl hb
  have hlast := (hrounds.goes hl).1.progress
  rw [h] at hstops
  cases hstops with
  | ended hover =>
    by_contra hp
    refine absurd hover (Bool.eq_false_iff.mp (Loop.isOver_eq_false fun hwaiting => hp (hwaiting ▸ hlast)))

end

end QmlScript.Registry
