import Mathlib.Data.List.Perm.Subperm
import QmlScript.Proofs.Table
import QmlScript.Registry.Bundle

/-!
# Components stand behind their bases

A component is placed after its base, its base after its own base, and so on, up to the root of all types or a
component that has its place. A placement that succeeds gives every component one place.
-/

namespace QmlScript.Registry

open List

variable {bases : Table String String}
variable {bound : Nat} {name base : String} {placed order : List String}

/-- A placement has done nothing, or placed the base and the component. -/
theorem placeBehindBase_cases (h : placeBehindBase bases (bound + 1) name placed = .ok order) :
    ((name = root ∨ name ∈ placed) ∧ order = placed) ∨
    (name ≠ root ∧ name ∉ placed ∧ ∃ base front, bases.get? name = some base ∧
      placeBehindBase bases bound base placed = .ok front ∧ order = front ++ [name]) := by
  unfold placeBehindBase at h
  split at h
  · rename_i hstop
    have hor : name = root ∨ name ∈ placed := by simpa using hstop
    exact Or.inl ⟨hor, (Except.ok.inj h).symm⟩
  · rename_i hgo
    have hnor : ¬ (name = root ∨ name ∈ placed) := by simpa using hgo
    refine Or.inr ⟨fun hr => hnor (.inl hr), fun hp => hnor (.inr hp), ?_⟩
    cases hb : bases.get? name with
    | none => rw [hb] at h; simp at h
    | some base =>
      rw [hb] at h
      cases hf : placeBehindBase bases bound base placed with
      | error e => simp [hf, bind, Except.bind] at h
      | ok front =>
        simp only [hf, bind, Except.bind, pure, Except.pure, Except.ok.injEq] at h
        exact ⟨base, front, rfl, hf, h.symm⟩

theorem placeBehindBase_of_base {front : List String} (hroot : name ≠ root) (hplaced : name ∉ placed)
    (hbase : bases.get? name = some base) (hfront : placeBehindBase bases bound base placed = .ok front) :
    placeBehindBase bases (bound + 1) name placed = .ok (front ++ [name]) := by
  have hgo : ¬ ((decide (name = root) || placed.contains name) = true) := by simp [hroot, hplaced]
  unfold placeBehindBase
  rw [if_neg hgo, hbase]
  simp [hfront, bind, Except.bind, pure, Except.pure]

theorem placeBehindBase_mono (h : placeBehindBase bases bound name placed = .ok order) (more : Nat) :
    placeBehindBase bases (bound + more) name placed = .ok order := by
  induction bound generalizing name order with
  | zero => simp [placeBehindBase] at h
  | succ bound ih =>
    rw [Nat.succ_add]
    rcases placeBehindBase_cases h with ⟨hstop, rfl⟩ | ⟨hroot, hplaced, base, front, hb, hf, rfl⟩
    · unfold placeBehindBase
      rw [if_pos (by simpa using hstop)]
    · exact placeBehindBase_of_base hroot hplaced hb (ih hf)

/-- Each component placed on the way could have been placed by itself, with no longer an order. -/
theorem placeBehindBase_part (h : placeBehindBase bases bound name placed = .ok order) {other : String}
    (ho : other ∈ order) (hp : other ∉ placed) :
    ∃ b part, placeBehindBase bases b other placed = .ok part ∧ part.length ≤ order.length := by
  induction bound generalizing name order with
  | zero => simp [placeBehindBase] at h
  | succ bound ih =>
    rcases placeBehindBase_cases h with ⟨_, rfl⟩ | ⟨hroot, hplaced, base, front, hb, hf, rfl⟩
    · exact absurd ho hp
    · rcases mem_append.mp ho with ho | ho
      · obtain ⟨b, part, hpart, hlen⟩ := ih hf ho
        exact ⟨b, part, hpart, hlen.trans (by simp)⟩
      · obtain rfl := mem_singleton.mp ho
        exact ⟨bound + 1, _, h, le_rfl⟩

/-- The way up from a component does not come back: its order would be longer than itself. -/
theorem not_mem_front {front : List String} (hroot : name ≠ root) (hplaced : name ∉ placed)
    (hbase : bases.get? name = some base) (hfront : placeBehindBase bases bound base placed = .ok front) :
    name ∉ front := by
  intro hmem
  obtain ⟨b, part, hpart, hlen⟩ := placeBehindBase_part hfront hmem hplaced
  have hwhole := placeBehindBase_of_base hroot hplaced hbase hfront
  have hsame := placeBehindBase_mono hpart (bound + 1)
  rw [Nat.add_comm, placeBehindBase_mono hwhole b] at hsame
  rw [← Except.ok.inj hsame] at hlen
  simp at hlen

/-- An order in which each component stands once and behind its base. -/
structure Placed (bases : Table String String) (order : List String) : Prop where
  nodup : order.Nodup
  known : ∀ name ∈ order, name ∈ bases.keys
  behind : ∀ front name back, order = front ++ name :: back →
    ∃ base, bases.get? name = some base ∧ (base = root ∨ base ∈ front)

theorem Placed.nil : Placed bases [] := ⟨nodup_nil, by simp, by simp⟩

theorem Placed.snoc (h : Placed bases order) (hname : name ∉ order) (hbase : bases.get? name = some base)
    (hb : base = root ∨ base ∈ order) :
    Placed bases (order ++ [name]) := by
  refine ⟨?_, fun other ho => ?_, fun front other back heq => ?_⟩
  · rw [nodup_append]
    refine ⟨h.nodup, nodup_singleton name, fun a ha b hb' => ?_⟩
    rintro rfl
    exact hname (mem_singleton.mp hb' ▸ ha)
  · rcases mem_append.mp ho with ho | ho
    · exact h.known other ho
    · rw [mem_singleton.mp ho, Table.mem_keys_iff]
      exact ⟨base, hbase⟩
  · rcases eq_nil_or_concat back with rfl | ⟨back, last, rfl⟩
    · obtain ⟨rfl, hlast⟩ := append_inj' (show order ++ [name] = front ++ [other] from heq) rfl
      obtain rfl : name = other := by simpa using hlast
      exact ⟨base, hbase, hb⟩
    · have heq' : order ++ [name] = (front ++ other :: back) ++ [last] := by simpa using heq
      exact h.behind front other back (append_inj' heq' rfl).1

theorem placeBehindBase_placed (hp : Placed bases placed) (h : placeBehindBase bases bound name placed = .ok order) :
    Placed bases order ∧ placed <+: order ∧ (name = root ∨ name ∈ order) := by
  induction bound generalizing name order with
  | zero => simp [placeBehindBase] at h
  | succ bound ih =>
    rcases placeBehindBase_cases h with ⟨hstop, rfl⟩ | ⟨hroot, hplaced, base, front, hb, hf, rfl⟩
    · exact ⟨hp, prefix_refl _, hstop⟩
    · obtain ⟨hfp, hpre, hbase⟩ := ih hf
      have hfresh := not_mem_front hroot hplaced hb hf
      exact ⟨hfp.snoc hfresh hb hbase, hpre.trans (prefix_append _ _), Or.inr (by simp)⟩

theorem foldlM_placed (names : List String) (hp : Placed bases placed)
    (h : names.foldlM (fun placed name => placeBehindBase bases bound name placed) placed = .ok order) :
    Placed bases order ∧ placed <+: order ∧ ∀ name ∈ names, name = root ∨ name ∈ order := by
  induction names generalizing placed with
  | nil =>
    obtain rfl : placed = order := Except.ok.inj h
    exact ⟨hp, prefix_refl _, by simp⟩
  | cons name names ih =>
    rw [foldlM_cons] at h
    cases hn : placeBehindBase bases bound name placed with
    | error e => simp [hn, bind, Except.bind] at h
    | ok next =>
      simp only [hn, bind, Except.bind] at h
      obtain ⟨hnext, hpre, hmem⟩ := placeBehindBase_placed hp hn
      obtain ⟨horder, hpre', hall⟩ := ih hnext h
      refine ⟨horder, hpre.trans hpre', fun other ho => ?_⟩
      rcases mem_cons.mp ho with rfl | ho
      · exact hmem.imp_right fun hm => hpre'.subset hm
      · exact hall other ho

theorem sectionOrder_placed (h : sectionOrder bases = .ok order) :
    Placed bases order ∧ ∀ name ∈ bases.keys, name = root ∨ name ∈ order := by
  obtain ⟨hp, _, hall⟩ := foldlM_placed bases.keys Placed.nil h
  exact ⟨hp, hall⟩

/-- Each base is the root or has a base itself, and bases lead downwards. -/
def Downwards (bases : Table String String) (rank : String → Nat) : Prop :=
  ∀ name base, bases.get? name = some base → base = root ∨ (base ∈ bases.keys ∧ rank base < rank name)

/-- The way up is never too long: the components `seen` are different ones with bases. -/
theorem placeBehindBase_downwards {rank : String → Nat} (h : Downwards bases rank) (seen : List String)
    (hname : name = root ∨ name ∈ bases.keys) (hnodup : seen.Nodup) (hsub : seen ⊆ bases.keys)
    (hrank : ∀ other ∈ seen, rank name < rank other) (hb : bases.size < bound + seen.length) :
    ∃ order, placeBehindBase bases (bound + 1) name placed = .ok order := by
  induction bound generalizing name seen with
  | zero =>
    have hlength := (hnodup.subperm hsub).length_le
    rw [Table.length_keys] at hlength
    omega
  | succ bound ih =>
    by_cases hstop : name = root ∨ name ∈ placed
    · exact ⟨placed, by rw [placeBehindBase, if_pos (by simpa using hstop)]⟩
    rw [not_or] at hstop
    have hkey := hname.resolve_left hstop.1
    obtain ⟨base, hbase⟩ := (Table.mem_keys_iff _ _).mp hkey
    have hdown := h name base hbase
    by_cases hroot : base = root
    · exact ⟨_, placeBehindBase_of_base hstop.1 hstop.2 hbase (by rw [placeBehindBase, if_pos (by simp [hroot])])⟩
    · obtain ⟨hmem, hlt⟩ := hdown.resolve_left hroot
      obtain ⟨front, hfront⟩ := ih (name :: seen) (.inr hmem)
        (nodup_cons.mpr ⟨fun hin => (hrank name hin).false, hnodup⟩) (cons_subset.mpr ⟨hkey, hsub⟩)
        (forall_mem_cons.mpr ⟨hlt, fun other ho => hlt.trans (hrank other ho)⟩) (by rw [length_cons]; omega)
      exact ⟨_, placeBehindBase_of_base hstop.1 hstop.2 hbase hfront⟩

theorem sectionOrder_downwards (rank : String → Nat) (h : Downwards bases rank) :
    ∃ order, sectionOrder bases = .ok order := by
  have hfold : ∀ names placed, names ⊆ bases.keys → ∃ order,
      names.foldlM (fun placed name => placeBehindBase bases (bases.size + 2) name placed) placed = .ok order := by
    intro names
    induction names with
    | nil => exact fun placed _ => ⟨placed, rfl⟩
    | cons name names ih =>
      intro placed hsub
      obtain ⟨hname, hnames⟩ := cons_subset.mp hsub
      obtain ⟨next, hnext⟩ : ∃ next, placeBehindBase bases (bases.size + 2) name placed = .ok next :=
        placeBehindBase_downwards h [] (.inr hname) nodup_nil (nil_subset _) (by simp) (by simp)
      rw [foldlM_cons, hnext]
      exact ih next hnames
  exact hfold bases.keys [] (Subset.refl _)

end QmlScript.Registry
