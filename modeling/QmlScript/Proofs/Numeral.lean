import Mathlib.Algebra.Group.Nat.Defs
import QmlScript.Proofs.Reading

/-!
# Reading decimal numerals

The decimal digits of a natural number are read as that number, unless there are more of them than a
whole number may have.
-/

namespace QmlScript.Number

open List

variable {s : List Char}

theorem isDigit_iff_toNat (x : Char) : x.isDigit = true ↔ 48 ≤ x.toNat ∧ x.toNat ≤ 57 := by
  simp [Char.isDigit, UInt32.le_iff_toNat_le]

theorem digitValue?_of_isDigit {x : Char} (h : x.isDigit = true) : Text.digitValue? x = some (x.toNat - '0'.toNat) := by
  rw [Text.digitValue?, if_pos h]

theorem isMargin_of_isDigit {x : Char} (h : x.isDigit = true) : isMargin x = false := by
  have hcode := (isDigit_iff_toNat x).mp h
  simp only [isMargin, Text.isPlainBlank, Text.isWideBlank, ← Bool.not_eq_true, Bool.or_eq_true,
    Bool.and_eq_true, decide_eq_true_eq, beq_iff_eq]
  omega

theorem normalise_of_digits (h : ∀ x ∈ s, x.isDigit = true) : normalise s = s := by
  have hdrop : ∀ t : List Char, (∀ x ∈ t, x.isDigit = true) → t.dropWhile isMargin = t := by
    intro t ht
    cases t with
    | nil => rfl
    | cons x t => simp [isMargin_of_isDigit (ht x (by simp))]
  unfold normalise
  rw [map_congr_left (g := id), map_id, Text.trimBy, hdrop s h, hdrop s.reverse (by simpa using h), reverse_reverse]
  intro x hx
  have hcode := (isDigit_iff_toNat x).mp (h x hx)
  have hsum : '0'.toNat + (x.toNat - '0'.toNat) = x.toNat := by
    show 48 + (x.toNat - 48) = x.toNat
    omega
  simp only [digitValue?_of_isDigit (h x hx)]
  rw [hsum, Char.ofNat_toNat, id]

theorem readSign_of_digits (h : ∀ x ∈ s, x.isDigit = true) : readSign s = (false, s) := by
  unfold readSign
  split
  · exact absurd (h '-' (by simp)) (by decide)
  · exact absurd (h '+' (by simp)) (by decide)
  · rfl

theorem dropUnderscores?_of_not_mem {isDigit : Char → Bool} {before : Option Char} (h : '_' ∉ s) :
    dropUnderscores? isDigit before s = some s := by
  induction s generalizing before with
  | nil => rfl
  | cons x s ih =>
    obtain ⟨hx, hs⟩ := not_or.mp (mem_cons.not.mp h)
    rw [dropUnderscores?, ih hs]
    · rfl
    · exact Ne.symm hx

theorem not_mem_of_digits (h : ∀ x ∈ s, x.isDigit = true) : '_' ∉ s := fun hmem =>
  absurd (h '_' hmem) (by decide)

theorem hexValue?_digitChar {d : Nat} (h : d < 16) : Text.hexValue? d.digitChar = some d := by
  have hall : ∀ d < 16, Text.hexValue? d.digitChar = some d := by decide
  exact hall d h

theorem readDigits?_digits {base : Nat} (hmin : 1 < base) (hmax : base ≤ 16) (n : Nat) :
    readDigits? base (Nat.toDigits base n) = some n := by
  rw [readDigits?, if_neg (by simp)]
  induction n using Nat.strong_induction_on with
  | _ n ih =>
    by_cases hlt : n < base
    · rw [Nat.toDigits_of_lt_base hlt]
      simp [hexValue?_digitChar (hlt.trans_le hmax), hlt]
    · have hdigit : n % base < base := Nat.mod_lt n (by omega)
      rw [Nat.toDigits_of_base_le hmin (by omega), foldl_append, ih _ (Nat.div_lt_self (by omega) hmin)]
      simp [hexValue?_digitChar (hdigit.trans_le hmax), hdigit, Nat.div_add_mod']

theorem not_mem_of_readDigits? {base n : Nat} {c : Char} (hc : Text.hexValue? c = none)
    (h : readDigits? base s = some n) : c ∉ s := by
  intro hmem
  obtain ⟨front, back, rfl⟩ := append_of_mem hmem
  have hnone : ∀ t : List Char, t.foldl (fun acc c => do
      let n ← acc
      let d ← Text.hexValue? c
      if d < base then some (n * base + d) else none) none = none := by
    intro t
    induction t with
    | nil => rfl
    | cons d t ih => exact ih
  have hstop : ∀ acc : Option Nat, (acc >>= fun n => Text.hexValue? c >>= fun d =>
      if d < base then some (n * base + d) else none) = none := by
    intro acc
    simp [hc]
  rw [readDigits?, if_neg (by simp), foldl_append, foldl_cons, hstop, hnone] at h
  cases h

theorem dropBaseMark_of_digits (base : Nat) (h : ∀ x ∈ s, x.isDigit = true) : dropBaseMark base s = s := by
  unfold dropBaseMark
  split
  · rename_i x s
    have hx : x.isDigit = true := h x (by simp)
    refine if_neg fun hmark => ?_
    simp only [Bool.or_eq_true, decide_eq_true_eq] at hmark
    rcases hmark with rfl | rfl <;> exact absurd hx (by decide)
  · rfl

theorem readInt?_digits {base n : Nat} (hmin : 1 < base) (hmax : base ≤ 16)
    (h : ∀ x ∈ Nat.toDigits base n, x.isDigit = true) : readInt? base (Nat.toDigits base n) = some (n : Int) := by
  rw [readInt?, normalise_of_digits h, readSign_of_digits h]
  simp [dropBaseMark_of_digits base h, dropUnderscores?_of_not_mem (not_mem_of_digits h), readDigits?_digits hmin hmax]

section Decimal

variable (n : Nat)

theorem isDigit_of_mem_digits : ∀ x ∈ Nat.toDigits 10 n, x.isDigit = true := by
  intro x hx
  exact Nat.isDigit_of_mem_toDigits (by decide) (by decide) hx

theorem countDigits?_digits : countDigits? (Nat.toDigits 10 n) = some (Nat.toDigits 10 n).length := by
  have hdigits := isDigit_of_mem_digits n
  have hrun : (Nat.toDigits 10 n).takeWhile (fun c => c.isDigit || c = '_') = Nat.toDigits 10 n := by
    have hall : ∀ x ∈ Nat.toDigits 10 n, (x.isDigit || x = '_') = true := by
      intro x hx
      simp [hdigits x hx]
    simpa using Grammar.takeWhile_append_of_head (t := []) hall (by simp)
  rw [countDigits?, normalise_of_digits hdigits, readSign_of_digits hdigits]
  simp only [hrun, dropUnderscores?_of_not_mem (not_mem_of_digits hdigits), Option.map_some]

theorem readInt_repr : readInt 10 n.repr =
    if n < 10 ^ mostDigits then .ok (n : Int) else .error (.tooLong (Nat.toDigits 10 n).length) := by
  have hlength : (Nat.toDigits 10 n).length ≤ mostDigits ↔ n < 10 ^ mostDigits :=
    Nat.length_toDigits_le_iff (by decide) (by decide)
  rw [readInt, if_pos rfl, Nat.toList_repr, countDigits?_digits]
  by_cases hlt : n < 10 ^ mostDigits
  · have hfew : ¬ mostDigits < (Nat.toDigits 10 n).length := by
      have := hlength.mpr hlt
      omega
    simp [Option.filter, hfew, readInt?_digits (by decide) (by decide) (isDigit_of_mem_digits n), hlt]
  · have hmany : mostDigits < (Nat.toDigits 10 n).length := by
      have := mt hlength.mp hlt
      omega
    simp [Option.filter, hmany, hlt]

end Decimal

theorem length_digits_pow (k : Nat) : (Nat.toDigits 10 (10 ^ k)).length = k + 1 := by
  have hle : (Nat.toDigits 10 (10 ^ k)).length ≤ k + 1 :=
    (Nat.length_toDigits_le_iff (by decide) (by omega)).mpr (Nat.pow_lt_pow_right (by decide) (by omega))
  have hlt : k < (Nat.toDigits 10 (10 ^ k)).length := by
    by_contra hle
    cases k with
    | zero => simp at hle
    | succ k =>
      have hpow := (Nat.length_toDigits_le_iff (by decide) (by omega)).mp (Nat.not_lt.mp hle)
      omega
  omega

end QmlScript.Number

namespace QmlScript.Json

theorem isWritable_int {n : Int} : (int n).isWritable = true ↔ n.natAbs < 10 ^ Number.mostDigits := by
  rw [isWritable, decide_eq_true_iff]
  generalize Number.mostDigits = digits
  exact Iff.rfl

end QmlScript.Json

namespace QmlScript.Grammar

open List

theorem startsWith_base_digits (n : Nat) {rest : List Char} (hrest : ∀ x ∈ rest.head?, x ≠ 'x') :
    Text.startsWith ['0', 'x'] (Nat.toDigits 10 n ++ rest) = false := by
  have hdigits := Number.isDigit_of_mem_digits n
  have hne : Nat.toDigits 10 n ≠ [] := Nat.toDigits_ne_nil
  revert hdigits hne
  rcases Nat.toDigits 10 n with _ | ⟨x, _ | ⟨y, s⟩⟩
  · intro _ hne
    exact absurd rfl hne
  · intro _ _
    cases rest with
    | nil => simp [Text.startsWith, Text.after?]
    | cons y rest =>
      have hy : 'x' ≠ y := (hrest y rfl).symm
      simp [Text.startsWith, Text.after?, hy]
  · intro hdigits _
    have hy : 'x' ≠ y := by
      rintro rfl
      exact absurd (hdigits 'x' (by simp)) (by decide)
    simp [Text.startsWith, Text.after?, hy]

theorem numberValue_repr (n : Nat) : numberValue n.repr =
    if n < 10 ^ Number.mostDigits then .ok (.int n)
    else .error (.tooLong (Nat.toDigits 10 n).length) := by
  have hbase : startsWithText "0x" n.repr = false := by
    rw [startsWithText, Nat.toList_repr, ← append_nil (Nat.toDigits 10 n)]
    exact startsWith_base_digits n (by simp)
  have hdot : n.repr.toList.contains '.' = false := by
    rw [Nat.toList_repr, ← Bool.not_eq_true, contains_iff_mem]
    intro hmem
    exact absurd (Number.isDigit_of_mem_digits n '.' hmem) (by decide)
  rw [numberValue, hbase, hdot, Number.readInt_repr]
  by_cases hlt : n < 10 ^ Number.mostDigits
  · simp only [if_pos hlt]
    rfl
  · simp only [if_neg hlt]
    rfl

end QmlScript.Grammar
