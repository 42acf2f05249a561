import QmlScript.Proofs.Expression.Assignment
import QmlScript.Proofs.Traversal

/-!
# Parsers do not look at their notes

What a parser replies depends on the text, and of the notes only on the number of declarations so far and on
whether a number could not be read. So with notes that are alike in this it gives the same reply, and leaves
notes that are alike.
-/

namespace QmlScript.Grammar

open QmlScript.Grammar.Parser List

/-- A relation of notes that lasts, whatever is noted in both. -/
structure Lasting (R : Notes → Notes → Prop) : Prop where
  marks : ∀ {n m}, R n m → n.marks = m.marks
  fault : ∀ {n m}, R n m → n.fault = m.fault
  comment : ∀ {n m}, R n m → ∀ text offset, R (n.comment text offset) (m.comment text offset)
  declared : ∀ {n m}, R n m → R n.declared m.declared
  withFault : ∀ {n m}, R n m → ∀ fault, R { n with fault } { m with fault }

/-- The parser gives one reply with related notes, and leaves related notes. -/
def Oblivious {α : Type} (R : Notes → Notes → Prop) (p : Parser α) : Prop :=
  ∀ c n m, R n m → ∃ reply n' m', p c n = (reply, n') ∧ p c m = (reply, m') ∧ R n' m'

variable {α β : Type} {R : Notes → Notes → Prop}

namespace Oblivious

variable {p q : Parser α}

theorem pure (a : α) : Oblivious R (Pure.pure a : Parser α) := fun c n m h =>
  ⟨.done a c, n, m, rfl, rfl, h⟩

theorem still (reply : Cursor → Reply α) : Oblivious R fun c notes => (reply c, notes) :=
  fun c n m h => ⟨reply c, n, m, rfl, rfl, h⟩

theorem bind {f : α → Parser β} (hp : Oblivious R p) (hf : ∀ a, Oblivious R (f a)) : Oblivious R (p >>= f) := by
  intro c n m h
  obtain ⟨reply, n', m', hn, hm, h'⟩ := hp c n m h
  rw [bind_eq]
  unfold Parser.bind
  rw [hn, hm]
  cases reply with
  | done a next => exact hf a next n' m' h'
  | miss offset lack | stop offset lack => exact ⟨_, n', m', rfl, rfl, h'⟩

theorem orElse (hp : Oblivious R p) (hq : Oblivious R q) : Oblivious R (p.orElse q) := by
  intro c n m h
  obtain ⟨reply, n', m', hn, hm, h'⟩ := hp c n m h
  unfold Parser.orElse
  rw [hn, hm]
  cases reply with
  | done a next | stop offset lack => exact ⟨_, n', m', rfl, rfl, h'⟩
  | miss offset lack =>
    obtain ⟨reply, n'', m'', hn, hm, h''⟩ := hq c n' m' h'
    simp only [hn, hm]
    cases reply with
    | done a next | stop offset lack | miss offset' lack' => exact ⟨_, n'', m'', rfl, rfl, h''⟩

theorem choice {ps : List (Parser α)} (h : ∀ p ∈ ps, Oblivious R p) : Oblivious R (choice ps) :=
  choice_of_forall (still _) orElse h

theorem optional (hp : Oblivious R p) : Oblivious R p.optional := by
  intro c n m h
  obtain ⟨reply, n', m', hn, hm, h'⟩ := hp c n m h
  unfold Parser.optional
  rw [hn, hm]
  cases reply <;> exact ⟨_, n', m', rfl, rfl, h'⟩

theorem required (hp : Oblivious R p) : Oblivious R p.required := by
  intro c n m h
  obtain ⟨reply, n', m', hn, hm, h'⟩ := hp c n m h
  unfold Parser.required
  rw [hn, hm]
  cases reply <;> exact ⟨_, n', m', rfl, rfl, h'⟩

theorem telling (lack : Lack) (hp : Oblivious R p) : Oblivious R (telling lack p) := by
  intro c n m h
  obtain ⟨reply, n', m', hn, hm, h'⟩ := hp c n m h
  unfold Parser.telling
  rw [hn, hm]
  cases reply <;> exact ⟨_, n', m', rfl, rfl, h'⟩

theorem manyUpTo (hp : Oblivious R p) (bound : Nat) : Oblivious R (p.manyUpTo bound) := by
  induction bound with
  | zero => exact pure []
  | succ bound ih =>
    rw [manyUpTo_succ]
    refine hp.optional.bind fun found => ?_
    cases found with
    | none => exact pure []
    | some a => exact ih.bind fun as => pure (a :: as)

theorem many (hp : Oblivious R p) : Oblivious R p.many := fun c => hp.manyUpTo (c.left + 1) c

theorem sepBy {sep : Parser Unit} (hp : Oblivious R p) (hsep : Oblivious R sep) : Oblivious R (p.sepBy sep) :=
  hp.bind fun _ => (many (hsep.bind fun _ => hp)).bind fun _ => pure _

variable (hR : Lasting R)

include hR

theorem tentative (hp : Oblivious R p) : Oblivious R (tentative p) := by
  intro c n m h
  obtain ⟨reply, n', m', hn, hm, h'⟩ := hp c n m h
  have hforget : R { n' with fault := n.fault } { m' with fault := m.fault } :=
    hR.fault h ▸ hR.withFault h' n.fault
  unfold Parser.tentative
  rw [hn, hm]
  cases reply with
  | done a next => exact ⟨_, n', m', rfl, rfl, h'⟩
  | miss offset lack | stop offset lack => exact ⟨_, _, _, rfl, rfl, hforget⟩

theorem checked (hp : Oblivious R p) : Oblivious R (checked p) := by
  intro c n m h
  obtain ⟨reply, n', m', hn, hm, h'⟩ := hp c n m h
  unfold Parser.checked
  simp only [hn, hm, hR.fault h']
  split <;> exact ⟨_, n', m', rfl, rfl, h'⟩

theorem skipUpTo (bound : Nat) (c : Cursor) {n m : Notes} (h : R n m) :
    ∃ next n' m', skipUpTo bound c n = (next, n') ∧ skipUpTo bound c m = (next, m') ∧ R n' m' := by
  induction bound generalizing c n m with
  | zero => exact ⟨skipGap c, n, m, rfl, rfl, h⟩
  | succ bound ih =>
    unfold Grammar.skipUpTo
    dsimp only
    split
    · exact ih _ (hR.comment h _ _)
    · split
      · exact ih _ h
      · exact ⟨_, n, m, rfl, rfl, h⟩

theorem skip (c : Cursor) {n m : Notes} (h : R n m) :
    ∃ next n' m', skip c n = (next, n') ∧ skip c m = (next, m') ∧ R n' m' := skipUpTo hR (c.left + 1) c h

theorem place : Oblivious R place := by
  intro c n m h
  obtain ⟨next, n', m', hn, hm, h'⟩ := skip hR c h
  unfold Grammar.place
  simp only [hn, hm]
  exact ⟨_, n', m', rfl, rfl, h'⟩

theorem token (lack : Lack) (find : Text.Recogniser α) : Oblivious R (token lack find) := by
  intro c n m h
  obtain ⟨next, n', m', hn, hm, h'⟩ := skip hR c h
  unfold Grammar.token
  simp only [hn, hm]
  cases find next.ahead <;> exact ⟨_, n', m', rfl, rfl, h'⟩

theorem mark (word : String) : Oblivious R (mark word) := token hR _ _

theorem name (lack : Lack) (first rest : Char → Bool) : Oblivious R (name lack first rest) := token hR _ _

theorem plainName : Oblivious R plainName := token hR _ _

theorem keyword (word : String) : Oblivious R (keyword word) := by
  intro c n m h
  obtain ⟨next, n', m', hn, hm, h'⟩ := skip hR c h
  unfold Grammar.keyword
  simp only [hn, hm]
  cases keywordAt word.toList next <;> exact ⟨_, n', m', rfl, rfl, h'⟩

theorem numberText : Oblivious R numberText := by
  intro c n m h
  obtain ⟨next, n', m', hn, hm, h'⟩ := skip hR c h
  unfold Grammar.numberText
  simp only [hn, hm]
  generalize (if Text.startsWith ['0', 'x'] next.ahead = true then 2 else 0) = start
  split <;> exact ⟨_, n', m', rfl, rfl, h'⟩

theorem number : Oblivious R number := by
  refine (numberText hR).bind fun text c n m h => ?_
  cases numberValue text with
  | ok value => exact ⟨_, n, m, rfl, rfl, h⟩
  | error fault =>
    refine ⟨_, _, _, rfl, rfl, ?_⟩
    rw [hR.fault h]
    exact hR.withFault h _

theorem declare : Oblivious R declare := by
  intro c n m h
  rw [declare_eq, declare_eq, hR.marks h]
  exact ⟨_, _, _, rfl, rfl, hR.declared h⟩

omit hR in
theorem codeItem {items : Parser Unit} (hitems : Oblivious R items) : Oblivious R (codeItem items) := by
  intro c n m h
  unfold Grammar.codeItem
  split
  · split <;> exact ⟨_, n, m, rfl, rfl, h⟩
  · exact hitems _ n m h

theorem block (bound : Nat) : Oblivious R (blockUpTo bound) ∧ Oblivious R (blockItems bound) := by
  induction bound with
  | zero => exact ⟨still _, still _⟩
  | succ bound ih =>
    obtain ⟨hblock, hitems⟩ := ih
    constructor
    · intro c n m h
      unfold blockUpTo blockOf
      split
      · exact hitems _ n m h
      · exact ⟨_, n, m, rfl, rfl, h⟩
    · intro c n m h
      obtain ⟨next, n', m', hn, hm, h'⟩ := skip hR c h
      unfold blockItems itemsOf
      simp only [hn, hm]
      split
      · exact hitems _ n' m' h'
      · split
        · exact hitems _ n' m' h'
        · obtain ⟨reply, n'', m'', hn, hm, h''⟩ := hblock next n' m' h'
          simp only [hn, hm]
          cases reply with
          | done _ next => exact hitems next n'' m'' h''
          -- a block that is not there or not closed leaves the run of code to be tried
          | miss offset lack | stop offset lack => exact codeItem hitems (skipGap c) n'' m'' h''

theorem code : Oblivious R code := by
  intro c n m h
  obtain ⟨next, n', m', hn, hm, h'⟩ := skip hR c h
  obtain ⟨reply, n'', m'', hn', hm', h''⟩ := (block hR (3 * next.left + 3)).1 next n' m' h'
  unfold Grammar.code
  simp only [hn, hm, hn', hm']
  cases reply <;> exact ⟨_, n'', m'', rfl, rfl, h''⟩

theorem truthValue : Oblivious R truthValue :=
  ((keyword hR "true").bind fun _ => pure true).orElse ((keyword hR "false").bind fun _ => pure false)

theorem nullWord : Oblivious R nullWord := (keyword hR "null").bind fun _ => pure "null"

theorem quotedMeaning : Oblivious R quotedMeaning := token hR _ _

theorem values (bound : Nat) : Oblivious R (valueUpTo bound) ∧ Oblivious R (recordUpTo bound) := by
  induction bound with
  | zero => exact ⟨still _, still _⟩
  | succ bound ih =>
    obtain ⟨hvalue, hrecord⟩ := ih
    constructor
    · have hlist := (mark hR "[").bind fun _ => (hvalue.sepBy (mark hR ",")).bind fun items =>
        (mark hR "]").bind fun _ => pure (Json.arr items)
      refine choice ?_
      simp only [forall_mem_cons, not_mem_nil, false_implies, implies_true, and_true]
      exact ⟨(nullWord hR).bind fun _ => pure _, (truthValue hR).bind fun _ => pure _, number hR,
        (quotedMeaning hR).bind fun _ => pure _, hlist, hrecord⟩
    · have hkey : Oblivious R (Parser.orElse Grammar.quotedMeaning Grammar.plainName) :=
        (quotedMeaning hR).orElse (plainName hR)
      have hfield := hkey.bind fun key => (mark hR ":").bind fun _ => hvalue.bind fun value =>
        pure (key, value)
      exact (mark hR _).bind fun _ => (hfield.optional.sepBy ((mark hR ";").orElse (mark hR ","))).bind
        fun fields => (mark hR _).bind fun _ => pure _

theorem plainValue : Oblivious R plainValue := fun c => (values hR (3 * c.left + 3)).1 c

theorem record : Oblivious R record := fun c => (values hR (3 * c.left + 3)).2 c

theorem written (text : Json → String) (value : Json) : Oblivious R (written text value) := by
  intro c n m h
  refine ⟨_, _, _, rfl, rfl, ?_⟩
  split
  · exact h
  · rw [hR.fault h]
    exact hR.withFault h _

omit hR in
theorem checkType (type : String) (offset : Nat) : Oblivious R (checkType type offset) := by
  intro c n m h
  unfold Grammar.checkType
  dsimp only
  split
  · exact ⟨_, n, m, rfl, rfl, h⟩
  · split <;> exact ⟨_, n, m, rfl, rfl, h⟩

theorem closed : Closed (fun _ => True) fun p => Oblivious R p where
  pure := pure
  missing _ := still _
  sized h c := h c c
  bind := bind
  orElse := orElse
  choice := choice
  optional := optional
  required := required
  tentative := tentative hR
  checked := checked hR
  telling lack := telling lack
  many := many
  token := token hR
  keyword := keyword hR
  declare := declare hR
  code := code hR
  nullWord := nullWord hR
  truthValue := truthValue hR
  plainValue := plainValue hR
  record := record hR
  written text _ hq := (number hR).bind fun value => hq.bind fun _ => written hR text value
  listing := (mark hR "[").bind fun _ => ((plainValue hR).sepBy (mark hR ",")).optional.required.bind
    fun _ => (mark hR "]").required.bind fun _ => written hR _ _
  place h := (place hR).bind fun offset => h offset trivial
  checkType type _ _ := checkType type _

theorem source : Oblivious R source := by
  refine (closed hR).component.bind fun tree => (place hR).bind fun _ c n m h => ?_
  by_cases hend : c.ahead.isEmpty = true
  · simp only [if_pos hend]
    exact ⟨_, n, m, rfl, rfl, h⟩
  · simp only [if_neg hend]
    exact ⟨_, n, m, rfl, rfl, h⟩

end Oblivious

end QmlScript.Grammar
