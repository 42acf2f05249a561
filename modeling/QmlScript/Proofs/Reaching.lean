import QmlScript.Proofs.Fields
import QmlScript.Proofs.Sessions

/-!
# Where numbers are read

Not every text of digits, signs and points is a number, and a parser notes the first numeral that cannot be
read. `Reaches` says where a parser comes to read a number, and `Explains` that its faults are those of such
numerals.
-/

namespace QmlScript.Json

open List

/-! ## Values that can be written -/

theorem areWritable_iff {items : List Json} : areWritable items = true ↔ ∀ v ∈ items, v.isWritable = true := by
  induction items with
  | nil => simp [areWritable]
  | cons v items ih => simp [areWritable, ih]

theorem areFieldsWritable_iff {fields : List (String × Json)} :
    areFieldsWritable fields = true ↔ ∀ field ∈ fields, field.2.isWritable = true := by
  induction fields with
  | nil => simp [areFieldsWritable]
  | cons field fields ih => simp [areFieldsWritable, ih]

/-- The fields of an object are among those that it is made of. -/
theorem isWritable_ofPairs {pairs : List (String × Json)} (h : ∀ pair ∈ pairs, pair.2.isWritable = true) :
    (ofPairs pairs).isWritable = true := by
  have hfold : ∀ (pairs fields : List (String × Json)), (∀ pair ∈ pairs, pair.2.isWritable = true) →
      (∀ field ∈ fields, field.2.isWritable = true) →
      ∀ field ∈ pairs.foldl (fun fields pair => setField pair.1 pair.2 fields) fields,
        field.2.isWritable = true := by
    intro pairs
    induction pairs with
    | nil => exact fun fields _ hfields => hfields
    | cons pair pairs ih =>
      intro fields hpairs hfields
      refine ih _ (fun p hp => hpairs p (mem_cons_of_mem _ hp)) fun field hfield => ?_
      rcases mem_setField hfield with heq | hmem
      · rw [heq]
        exact hpairs pair mem_cons_self
      · exact hfields field hmem
  rw [ofPairs, isWritable, areFieldsWritable_iff]
  exact hfold pairs [] h (by simp)

end QmlScript.Json

namespace QmlScript.Grammar

open QmlScript.Grammar.Parser List Grammar

variable {α β : Type} {s : List Char} {c d : Cursor} {m n : Notes} {fault : Number.Fault}
variable {f : α → Parser β} {good' : β → Prop}

/-! ## Places of a source -/

/-- A place of a text: what is ahead of it ends the text, and its offset is the length of the rest. -/
def Cursor.In (c : Cursor) (s : List Char) : Prop := ∃ front, s = front ++ c.ahead ∧ c.offset = front.length

namespace Cursor.In

theorem start (s : List Char) : (Cursor.ofText s).In s := ⟨[], rfl, rfl⟩

theorem offset_le (h : c.In s) : c.offset ≤ s.length := by
  obtain ⟨front, rfl, hoffset⟩ := h
  rw [hoffset, length_append]
  omega

theorem offset_add_le {w t : List Char} (h : c.In s) (hw : c.ahead = w ++ t) : c.offset + w.length ≤ s.length := by
  obtain ⟨front, rfl, hoffset⟩ := h
  rw [hoffset, hw, length_append, length_append]
  omega

theorem advance (h : c.In s) (k : Nat) : (c.advance k).In s := by
  induction k generalizing c with
  | zero => exact h
  | succ k ih =>
    obtain ⟨front, htext, hoffset⟩ := h
    rw [Cursor.advance]
    cases hahead : c.ahead with
    | nil => exact ⟨front, htext, hoffset⟩
    | cons x t => exact ih ⟨front ++ [x], by simp [htext, hahead], by simp [hoffset]⟩

theorem skipUpTo (h : c.In s) (bound : Nat) (n : Notes) : (skipUpTo bound c n).1.In s := by
  induction bound generalizing c n with
  | zero => exact h.advance _
  | succ bound ih =>
    have hgap : (skipGap c).In s := h.advance _
    unfold skipUpTo
    dsimp only
    split
    · exact ih (hgap.advance _) _
    · split
      · exact ih (hgap.advance _) _
      · exact hgap

theorem skip (h : c.In s) (n : Notes) : (skip c n).1.In s := h.skipUpTo _ _

end Cursor.In

/-- What a parser may do to notes: note a comment of the source, finish a declaration, note a fault. -/
inductive Noted (s : List Char) (n : Notes) : Notes → Prop
  | same : Noted s n n
  | comment {m : Notes} {c : Cursor} {size : Nat} (h : Noted s n m) (hc : c.In s)
      (hsize : (blockComment? c.ahead <|> lineComment? c.ahead) = some size) :
      Noted s n (m.comment (c.ahead.take size) c.offset)
  | declared {m : Notes} (h : Noted s n m) : Noted s n m.declared
  | fault {m : Notes} (h : Noted s n m) (fault : Option Number.Fault) : Noted s n { m with fault }

theorem Noted.trans {k : Notes} (h : Noted s n m) (h' : Noted s m k) : Noted s n k := by
  induction h' with
  | same => exact h
  | comment _ hc hsize ih => exact ih.comment hc hsize
  | declared _ ih => exact ih.declared
  | fault _ fault ih => exact ih.fault fault

theorem Noted.skipUpTo (hc : c.In s) (bound : Nat) (n : Notes) : Noted s n (skipUpTo bound c n).2 := by
  induction bound generalizing c n with
  | zero => exact .same
  | succ bound ih =>
    have hgap : (skipGap c).In s := hc.advance _
    unfold Grammar.skipUpTo
    dsimp only
    split
    · rename_i size hsize
      exact (Noted.comment .same hgap hsize).trans (ih (hgap.advance _) _)
    · split
      · exact ih (hgap.advance _) _
      · exact .same

theorem Noted.skip (hc : c.In s) (n : Notes) : Noted s n (skip c n).2 := .skipUpTo hc _ n

/-- The length of a mark of base sixteen at the head of a text. -/
def markSize (s : List Char) : Nat := if Text.startsWith ['0', 'x'] s then 2 else 0

/-- The number of characters of a numeral behind the mark of its base. -/
def runSize (s : List Char) : Nat := ((s.drop (markSize s)).takeWhile isNumberChar).length

/-- The numeral at the head of a text, maybe behind the mark of base sixteen. -/
def numeral? (s : List Char) : Option String :=
  if runSize s = 0 then none else some (String.ofList (s.take (markSize s + runSize s)))

/-- A numeral ahead cannot be read, or its number cannot be written. -/
def Refused (s : List Char) (fault : Number.Fault) : Prop :=
  ∃ word, numeral? s = some word ∧ (numberValue word = .error fault ∨
    ∃ value : Json, numberValue word = .ok value ∧ value.isWritable = false ∧ fault = .unwritable)

/-! ## Where numbers are read -/

/-- Started with the notes, the parser comes to read a number at `d` with the notes `m`, and not in an operand that is
given up. -/
inductive Reaches (d : Cursor) (m : Notes) : {α : Type} → Parser α → Cursor → Notes → Prop
  | number : Reaches d m number d m
  | first {α β : Type} {p : Parser α} {f : α → Parser β} {c n} (h : Reaches d m p c n) :
      Reaches d m (p.bind f) c n
  | second {α β : Type} {p : Parser α} {f : α → Parser β} {c c' n n' a}
      (hp : p c n = (.done a c', n')) (h : Reaches d m (f a) c' n') : Reaches d m (p.bind f) c n
  | left {α : Type} {p q : Parser α} {c n} (h : Reaches d m p c n) : Reaches d m (p.orElse q) c n
  | right {α : Type} {p q : Parser α} {c n n' offset lack} (hp : p c n = (.miss offset lack, n'))
      (h : Reaches d m q c n') : Reaches d m (p.orElse q) c n
  | optional {α : Type} {p : Parser α} {c n} (h : Reaches d m p c n) : Reaches d m p.optional c n
  | required {α : Type} {p : Parser α} {c n} (h : Reaches d m p c n) : Reaches d m p.required c n
  | telling {α : Type} {p : Parser α} {c n} (lack : Lack) (h : Reaches d m p c n) :
      Reaches d m (p.telling lack) c n
  | checked {α : Type} {p : Parser α} {c n} (h : Reaches d m p c n) : Reaches d m p.checked c n
  | tentative {α : Type} {p : Parser α} {c c' n n' a} (hp : p c n = (.done a c', n'))
      (h : Reaches d m p c n) : Reaches d m p.tentative c n
  | round {α : Type} {p : Parser α} {bound c n} (h : Reaches d m p c n) :
      Reaches d m (p.manyUpTo (bound + 1)) c n
  | later {α : Type} {p : Parser α} {bound c c' n n' a} (hp : p c n = (.done a c', n'))
      (h : Reaches d m (p.manyUpTo bound) c' n') : Reaches d m (p.manyUpTo (bound + 1)) c n
  | sized {α : Type} {p : Cursor → Parser α} {c n} (h : Reaches d m (p c) c n) :
      Reaches d m (fun c n => p c c n) c n

/-- The parser comes to a numeral with the fault. -/
def Finds (s : List Char) (fault : Number.Fault) (p : Parser α) (c : Cursor) (n : Notes) : Prop :=
  ∃ d m, d.In s ∧ Reaches d m p c n ∧ Refused (skip d m).1.ahead fault

theorem Finds.imp {p : Parser α} {q : Parser β} {c' : Cursor} {n' : Notes}
    (h : ∀ d m, Reaches d m p c n → Reaches d m q c' n') (hp : Finds s fault p c n) :
    Finds s fault q c' n' := by
  obtain ⟨d, m, hd, hreach, hrefused⟩ := hp
  exact ⟨d, m, hd, h d m hreach, hrefused⟩

/-- Places of the source, and a value that is `good` unless its number cannot be written. -/
def Placed (s : List Char) (good : α → Prop) (bad : Prop) : Reply α → Prop
  | .done a next => next.In s ∧ (good a ∨ bad)
  | .miss offset _ => offset ≤ s.length
  | .stop offset _ => offset ≤ s.length

theorem Placed.imp {good good' : α → Prop} {bad bad' : Prop} {reply : Reply α} (h : Placed s good bad reply)
    (hgood : ∀ a, good a → good' a) (hbad : bad → bad') : Placed s good' bad' reply := by
  cases reply with
  | done a next => exact ⟨h.1, h.2.imp (hgood a) hbad⟩
  | miss offset lack | stop offset lack => exact h

/-- The parser goes wrong at places of the source only, notes faults of numerals that it reads, and gives a `good`
value unless a number cannot be written. -/
def Explained (s : List Char) (good : α → Prop) (p : Parser α) (c : Cursor) (n : Notes) : Prop :=
  ∃ reply n', p c n = (reply, n') ∧ Noted s n n' ∧
    (∀ fault, n'.fault = some fault → n.fault = some fault ∨ Finds s fault p c n) ∧
    Placed s good (Finds s .unwritable p c n) reply

def Explains (s : List Char) (good : α → Prop) (p : Parser α) : Prop :=
  ∀ c n, c.In s → Explained s good p c n

abbrev Accounts (s : List Char) (p : Parser α) : Prop := Explains s (fun _ => True) p

/-- No fault is new, and places where the text went wrong are in the source. -/
structure Settled (s : List Char) (good : α → Prop) (n : Notes) (result : Reply α × Notes) : Prop where
  notes : Noted s n result.2
  fault : result.2.fault = n.fault
  placed : Placed s good False result.1

theorem Settled.behind {good : α → Prop} {good' : β → Prop} {result : Reply α × Notes} {first : Reply β × Notes}
    (h : Settled s good first.2 result) (hfirst : Settled s good' n first) : Settled s good n result :=
  ⟨hfirst.notes.trans h.notes, h.fault.trans hfirst.fault, h.placed⟩

theorem Settled.behind_skip {good : α → Prop} {result : Reply α × Notes} (h : Settled s good (skip c n).2 result)
    (hc : c.In s) : Settled s good n result :=
  ⟨(Noted.skip hc n).trans h.notes, h.fault.trans (fault_skip c n), h.placed⟩

/-- The parser notes no fault and goes wrong at places of the source. -/
def Quiet (s : List Char) (good : α → Prop) (p : Parser α) : Prop := ∀ c n, c.In s → Settled s good n (p c n)

namespace Explains

variable {p q : Parser α} {good : α → Prop}

theorem imp {good' : α → Prop} (h : Explains s good p) (hgood : ∀ a, good a → good' a) : Explains s good' p := by
  intro c n hc
  obtain ⟨reply, n', hrun, hnotes, hfault, hreply⟩ := h c n hc
  exact ⟨reply, n', hrun, hnotes, hfault, hreply.imp hgood id⟩

theorem accounts (h : Explains s good p) : Accounts s p := h.imp fun _ _ => trivial

theorem of_quiet (h : Quiet s good p) : Explains s good p := by
  intro c n hc
  have hsettled := h c n hc
  exact ⟨_, _, rfl, hsettled.notes, fun fault h => .inl (hsettled.fault ▸ h),
    hsettled.placed.imp (fun _ => id) False.elim⟩

theorem pure {a : α} (ha : good a) : Explains s good (Pure.pure a : Parser α) :=
  of_quiet fun _ _ hc => ⟨.same, rfl, hc, .inl ha⟩

theorem missing (lack : Lack) : Explains s good fun c n => (.miss c.offset lack, n) :=
  of_quiet fun _ _ hc => ⟨.same, rfl, hc.offset_le⟩

/-- What follows is explained by itself or by a value that is not good. -/
theorem bindCases (hp : Explains s good p) (hgood : ∀ a, good a → Explains s good' (f a))
    (hbad : ∀ a c n, c.In s → ∃ reply n', f a c n = (reply, n') ∧ Noted s n n' ∧
      (∀ fault, n'.fault = some fault → n.fault = some fault ∨ fault = .unwritable ∨ Finds s fault (f a) c n) ∧
      Placed s (fun _ => True) True reply) :
    Explains s good' (p >>= f) := by
  intro c n hc
  obtain ⟨reply, n', hrun, hnotes, hfault, hreply⟩ := hp c n hc
  have hfirst : ∀ {fault}, Finds s fault p c n → Finds s fault (p >>= f) c n :=
    Finds.imp fun _ _ h => .first h
  have hnoted := fun fault h => (hfault fault h).imp_right hfirst
  cases reply with
  | miss offset lack =>
    exact ⟨.miss offset lack, n', by rw [bind_eq, Parser.bind, hrun], hnotes, hnoted, hreply⟩
  | stop offset lack => exact ⟨.stop offset lack, n', bind_stop hrun, hnotes, hnoted, hreply⟩
  | done a next =>
    have hsecond : ∀ {fault}, Finds s fault (f a) next n' → Finds s fault (p >>= f) c n :=
      Finds.imp fun _ _ h => .second hrun h
    rcases hreply.2 with ha | hunwritable
    · obtain ⟨reply, n'', hrun', hnotes', hfault', hreply'⟩ := hgood a ha next n' hreply.1
      refine ⟨reply, n'', (bind_done hrun).trans hrun', hnotes.trans hnotes', fun fault h => ?_,
        hreply'.imp (fun _ => id) hsecond⟩
      rcases hfault' fault h with hbefore | hfinds
      · exact hnoted fault hbefore
      · exact .inr (hsecond hfinds)
    · obtain ⟨reply, n'', hrun', hnotes', hfault', hreply'⟩ := hbad a next n' hreply.1
      refine ⟨reply, n'', (bind_done hrun).trans hrun', hnotes.trans hnotes', fun fault h => ?_, ?_⟩
      · rcases hfault' fault h with hbefore | rfl | hfinds
        · exact hnoted fault hbefore
        · exact .inr (hfirst hunwritable)
        · exact .inr (hsecond hfinds)
      · cases reply with
        | done b last => exact ⟨hreply'.1, .inr (hfirst hunwritable)⟩
        | miss offset lack | stop offset lack => exact hreply'

/-- What is good in the end may rest on what was good before. -/
theorem bindWith (hp : Explains s good p)
    (hf : ∀ a, Explains s (fun b => good a → good' b) (f a)) : Explains s good' (p >>= f) := by
  refine hp.bindCases (fun a ha => (hf a).imp fun b hb => hb ha) fun a c n hc => ?_
  obtain ⟨reply, n', hrun, hnotes, hfault, hreply⟩ := hf a c n hc
  exact ⟨reply, n', hrun, hnotes, fun fault h => (hfault fault h).imp_right .inr,
    hreply.imp (fun _ _ => trivial) fun _ => trivial⟩

theorem bind (hp : Explains s good p) (hf : ∀ a, Explains s good' (f a)) : Explains s good' (p >>= f) :=
  hp.bindWith fun a => (hf a).imp fun _ h _ => h

theorem orElse (hp : Explains s good p) (hq : Explains s good q) : Explains s good (p.orElse q) := by
  intro c n hc
  obtain ⟨reply, n', hrun, hnotes, hfault, hreply⟩ := hp c n hc
  have hleft : ∀ {fault}, Finds s fault p c n → Finds s fault (p.orElse q) c n :=
    Finds.imp fun _ _ h => .left h
  cases reply with
  | done a next =>
    exact ⟨_, n', orElse_done hrun, hnotes, fun fault h => (hfault fault h).imp_right hleft, hreply.1,
      hreply.2.imp_right hleft⟩
  | stop offset lack =>
    exact ⟨.stop offset lack, n', by rw [Parser.orElse, hrun], hnotes, fun fault h => (hfault fault h).imp_right hleft,
      hreply⟩
  | miss offset lack =>
    obtain ⟨reply, n'', hrun', hnotes', hfault', hreply'⟩ := hq c n' hc
    have hright : ∀ {fault}, Finds s fault q c n' → Finds s fault (p.orElse q) c n :=
      Finds.imp fun _ _ h => .right hrun h
    have hnoted : ∀ fault, n''.fault = some fault → n.fault = some fault ∨ Finds s fault (p.orElse q) c n := by
      intro fault h
      rcases hfault' fault h with hbefore | hfinds
      · exact (hfault fault hbefore).imp_right hleft
      · exact .inr (hright hfinds)
    cases reply with
    | done a next =>
      exact ⟨.done a next, n'', by simp only [Parser.orElse, hrun, hrun'], hnotes.trans hnotes', hnoted, hreply'.1,
        hreply'.2.imp_right hright⟩
    | stop offset' lack' =>
      exact ⟨.stop offset' lack', n'', by simp only [Parser.orElse, hrun, hrun'], hnotes.trans hnotes', hnoted, hreply'⟩
    | miss offset' lack' =>
      refine ⟨if offset < offset' then .miss offset' lack' else .miss offset lack, n'',
        by simp only [Parser.orElse, hrun, hrun'], hnotes.trans hnotes', hnoted, ?_⟩
      split
      · exact hreply'
      · exact hreply

theorem choice {ps : List (Parser α)} (h : ∀ p ∈ ps, Explains s good p) : Explains s good (choice ps) :=
  choice_of_forall (missing _) orElse h

/-- A parser that makes its reply from that of another. -/
theorem wrap {q : Parser β} (hp : Explains s good p) (hin : ∀ {d m c n}, Reaches d m p c n → Reaches d m q c n)
    (hq : ∀ {c n reply n' bad}, c.In s → p c n = (reply, n') → Placed s good bad reply →
      ∃ reply', q c n = (reply', n') ∧ Placed s good' bad reply') : Explains s good' q := by
  intro c n hc
  obtain ⟨reply, n', hrun, hnotes, hfault, hreply⟩ := hp c n hc
  have hfinds : ∀ {fault}, Finds s fault p c n → Finds s fault q c n := Finds.imp fun _ _ h => hin h
  obtain ⟨reply', hrun', hreply'⟩ := hq hc hrun hreply
  exact ⟨reply', n', hrun', hnotes, fun fault h => (hfault fault h).imp_right hfinds,
    hreply'.imp (fun _ => id) hfinds⟩

theorem optional (hp : Explains s good p) : Explains s (fun found => ∀ a ∈ found, good a) p.optional := by
  refine hp.wrap .optional fun {c n reply n' bad} hc hrun hreply => ?_
  rw [Parser.optional, hrun]
  cases reply with
  | done a next => exact ⟨_, rfl, hreply.1, hreply.2.imp_left fun h b hb => Option.some.inj hb ▸ h⟩
  | miss offset lack => exact ⟨_, rfl, hc, .inl (by simp)⟩
  | stop offset lack => exact ⟨_, rfl, hreply⟩

theorem required (hp : Explains s good p) : Explains s good p.required := by
  refine hp.wrap .required fun {c n reply n' bad} hc hrun hreply => ?_
  rw [Parser.required, hrun]
  cases reply <;> exact ⟨_, rfl, hreply⟩

theorem telling (lack : Lack) (hp : Explains s good p) : Explains s good (p.telling lack) := by
  refine hp.wrap (.telling lack) fun {c n reply n' bad} hc hrun hreply => ?_
  rw [Parser.telling, hrun]
  cases reply <;> exact ⟨_, rfl, hreply⟩

/-- What is read in vain is forgotten, so it is no fault. -/
theorem tentative (hp : Explains s good p) : Accounts s p.tentative := by
  intro c n hc
  obtain ⟨reply, n', hrun, hnotes, hfault, hreply⟩ := hp c n hc
  cases reply with
  | done a next =>
    have hin : ∀ {fault}, Finds s fault p c n → Finds s fault p.tentative c n :=
      Finds.imp fun _ _ h => .tentative hrun h
    exact ⟨.done (some a) next, n', tentative_done hrun, hnotes, fun fault h => (hfault fault h).imp_right hin,
      hreply.1, .inl trivial⟩
  | miss offset lack | stop offset lack =>
    exact ⟨.done none c, { n' with fault := n.fault }, by rw [Parser.tentative, hrun], hnotes.fault _,
      fun fault h => .inl h, hc, .inl trivial⟩

theorem checked (hp : Explains s good p) : Explains s good p.checked := by
  refine hp.wrap .checked fun {c n reply n' bad} hc hrun hreply => ?_
  by_cases hsome : n'.fault.isSome = true
  · exact ⟨.stop c.offset .anything, checked_stop hrun hsome, hc.offset_le⟩
  · exact ⟨reply, by rw [Parser.checked, hrun]; exact if_neg hsome, hreply⟩

theorem manyUpTo (hp : Explains s good p) (bound : Nat) :
    Explains s (fun as => ∀ a ∈ as, good a) (p.manyUpTo bound) := by
  induction bound with
  | zero => exact pure (by simp)
  | succ bound ih =>
    rw [manyUpTo_succ]
    refine hp.optional.bindWith fun found => ?_
    cases found with
    | none => exact pure fun _ => by simp
    | some a => exact ih.bindWith fun as => pure fun has ha => forall_mem_cons.mpr ⟨ha a rfl, has⟩

theorem sized {p : Cursor → Parser α} (h : ∀ c, Explains s good (p c)) : Explains s good fun c n => p c c n := by
  intro c n hc
  obtain ⟨reply, n', hrun, hnotes, hfault, hreply⟩ := h c c n hc
  have hin : ∀ {fault}, Finds s fault (p c) c n → Finds s fault (fun c n => p c c n) c n :=
    Finds.imp fun _ _ h => .sized h
  exact ⟨reply, n', hrun, hnotes, fun fault h => (hfault fault h).imp_right hin, hreply.imp (fun _ => id) hin⟩

theorem many (hp : Explains s good p) : Explains s (fun as => ∀ a ∈ as, good a) p.many :=
  sized (p := fun c => p.manyUpTo (c.left + 1)) fun c => hp.manyUpTo (c.left + 1)

theorem sepBy {sep : Parser Unit} (hp : Explains s good p) (hsep : Accounts s sep) :
    Explains s (fun as => ∀ a ∈ as, good a) (p.sepBy sep) := by
  refine hp.bindWith fun a => (many (hsep.bind fun _ => hp)).bindWith fun as => pure ?_
  intro has ha
  exact forall_mem_cons.mpr ⟨ha, has⟩

theorem place : Accounts s place := of_quiet fun c n hc => ⟨.skip hc n, fault_skip c n, hc.skip n, .inl trivial⟩

/-- What follows may rest on the place being one of the source. -/
theorem bindPlace {f : Nat → Parser β}
    (hf : ∀ offset ≤ s.length, Explains s good' (f offset)) : Explains s good' (Grammar.place >>= f) := by
  intro c n hc
  have hin := hc.skip n
  have hrun : Grammar.place c n = (.done (Grammar.skip c n).1.offset (Grammar.skip c n).1, (skip c n).2) := rfl
  obtain ⟨reply, n', hrun', hnotes, hfault, hreply⟩ := hf _ hin.offset_le _ (skip c n).2 hin
  have hsecond : ∀ {fault}, Finds s fault (f (skip c n).1.offset) (skip c n).1
      (Grammar.skip c n).2 → Finds s fault (Grammar.place >>= f) c n :=
    Finds.imp fun _ _ h => .second hrun h
  rw [fault_skip] at hfault
  exact ⟨reply, n', (bind_done hrun).trans hrun', (Noted.skip hc n).trans hnotes,
    fun fault h => (hfault fault h).imp_right hsecond, hreply.imp (fun _ => id) hsecond⟩

theorem token (lack : Lack) (find : Text.Recogniser α) : Accounts s (token lack find) := by
  refine of_quiet fun c n hc => ?_
  have hin := hc.skip n
  unfold Grammar.token
  dsimp only
  cases find (skip c n).1.ahead with
  | none => exact ⟨.skip hc n, fault_skip c n, hin.offset_le⟩
  | some found => exact ⟨.skip hc n, fault_skip c n, hin.advance _, .inl trivial⟩

theorem mark (word : String) : Accounts s (mark word) := token _ _

theorem name (lack : Lack) (first rest : Char → Bool) : Accounts s (name lack first rest) := token _ _

theorem keyword (word : String) : Accounts s (keyword word) := by
  refine of_quiet fun c n hc => ?_
  have hin := hc.skip n
  unfold Grammar.keyword
  dsimp only
  cases hat : keywordAt word.toList (skip c n).1 with
  | here => exact ⟨.skip hc n, fault_skip c n, hin.advance _, .inl trivial⟩
  | absent => exact ⟨.skip hc n, fault_skip c n, hin.offset_le⟩
  | runsInto => exact ⟨.skip hc n, fault_skip c n, Nat.le_trans (Nat.sub_le _ _) hin.offset_le⟩
  | runsOn =>
    refine ⟨.skip hc n, fault_skip c n, ?_⟩
    unfold keywordAt at hat
    split at hat
    · cases hat
    · rename_i rest hrest
      show _ + word.length ≤ s.length
      rw [← String.length_toList]
      exact hin.offset_add_le (Text.eq_append_of_after? hrest)

theorem declare : Accounts s declare := of_quiet fun _ _ hc => ⟨.declared .same, rfl, hc, .inl trivial⟩

end Explains

theorem numberText_eq (c : Cursor) (n : Notes) :
    numberText c n = match numeral? (skip c n).1.ahead with
      | some word => (.done word ((skip c n).1.advance
          (markSize (skip c n).1.ahead + runSize (skip c n).1.ahead)), (skip c n).2)
      | none => (.miss ((skip c n).1.offset + markSize (skip c n).1.ahead) .anything, (skip c n).2) := by
  have hunfold : numberText c n = if runSize (skip c n).1.ahead = 0
      then (.miss ((skip c n).1.offset + markSize (skip c n).1.ahead) .anything, (skip c n).2)
      else (.done (String.ofList ((skip c n).1.ahead.take
        (markSize (skip c n).1.ahead + runSize (skip c n).1.ahead))) ((skip c n).1.advance
          (markSize (skip c n).1.ahead + runSize (skip c n).1.ahead)), (skip c n).2) := rfl
  rw [hunfold, numeral?]
  by_cases hrun : runSize (skip c n).1.ahead = 0
  · rw [if_pos hrun, if_pos hrun]
  · rw [if_neg hrun, if_neg hrun]

theorem Cursor.In.offset_add_markSize_le (h : c.In s) : c.offset + markSize c.ahead ≤ s.length := by
  unfold markSize
  by_cases hbase : Text.startsWith ['0', 'x'] c.ahead = true
  · obtain ⟨t, ht⟩ := startsWith_iff.mp hbase
    rw [if_pos hbase]
    exact h.offset_add_le ht
  · rw [if_neg hbase]
    exact h.offset_le

theorem Refused.finds (h : Refused (skip c n).1.ahead fault) (hc : c.In s) : Finds s fault number c n :=
  ⟨c, n, hc, .number, h⟩

namespace Explains

theorem number : Explains s (fun value => value.isWritable = true) number := by
  intro c n hc
  have hin := hc.skip n
  have htext := numberText_eq c n
  cases hnumeral : numeral? (Grammar.skip c n).1.ahead with
  | none =>
    rw [hnumeral] at htext
    have hrun : Grammar.number c n = (.miss ((Grammar.skip c n).1.offset +
        markSize (Grammar.skip c n).1.ahead) .anything, (Grammar.skip c n).2) := by
      unfold Grammar.number Parser.bind
      rw [htext]
    exact ⟨_, _, hrun, .skip hc n, fun fault h => .inl (fault_skip c n ▸ h), hin.offset_add_markSize_le⟩
  | some word =>
    rw [hnumeral] at htext
    have hrun : Grammar.number c n = _ := bind_done htext
    cases hvalue : numberValue word with
    | ok value =>
      rw [hvalue] at hrun
      refine ⟨_, _, hrun, .skip hc n, fun fault h => .inl (fault_skip c n ▸ h), hin.advance _, ?_⟩
      by_cases hwritable : value.isWritable = true
      · exact .inl hwritable
      · exact .inr (Refused.finds ⟨word, hnumeral, .inr ⟨value, hvalue, Bool.eq_false_iff.mpr hwritable, rfl⟩⟩ hc)
    | error fault =>
      rw [hvalue] at hrun
      refine ⟨_, _, hrun, (Noted.skip hc n).fault _, fun fault' h => ?_, hin.advance _,
        .inl (by simp [Json.isWritable])⟩
      have hnoted : (n.fault <|> some fault) = some fault' := by
        rw [← fault_skip c n]
        exact h
      cases hn : n.fault with
      | some noted =>
        rw [hn] at hnoted
        exact .inl hnoted
      | none =>
        rw [hn] at hnoted
        obtain rfl : fault = fault' := Option.some.inj hnoted
        exact .inr (Refused.finds ⟨word, hnumeral, .inl hvalue⟩ hc)

end Explains

theorem quiet_codeItem {items : Parser Unit} (hitems : Quiet s (fun _ => True) items) :
    Quiet s (fun _ => True) (codeItem items) := by
  intro c n hc
  unfold codeItem
  split
  · split
    · exact ⟨.same, rfl, hc.advance 1, .inl trivial⟩
    · exact ⟨.same, rfl, hc.offset_le⟩
  · exact hitems _ n (hc.advance _)

theorem quiet_block (bound : Nat) :
    Quiet s (fun _ => True) (blockUpTo bound) ∧ Quiet s (fun _ => True) (blockItems bound) := by
  induction bound with
  | zero => exact ⟨fun c n hc => ⟨.same, rfl, hc.offset_le⟩, fun c n hc => ⟨.same, rfl, hc.offset_le⟩⟩
  | succ bound ih =>
    obtain ⟨hblock, hitems⟩ := ih
    constructor
    · intro c n hc
      unfold blockUpTo blockOf
      split
      · exact hitems _ n (hc.advance 1)
      · exact ⟨.same, rfl, hc.offset_le⟩
    · intro c n hc
      have hnext := hc.skip n
      have hhere : (skipGap c).In s := hc.advance _
      refine Settled.behind_skip (c := c) ?_ hc
      unfold blockItems itemsOf
      dsimp only
      split
      · exact hitems _ _ (hnext.advance _)
      · split
        · exact hitems _ _ (hhere.advance _)
        · have hfirst := hblock _ (skip c n).2 hnext
          generalize blockUpTo bound (skip c n).1 (skip c n).2 = result at hfirst
          obtain ⟨reply, n'⟩ := result
          cases reply with
          | done _ next => exact (hitems next n' hfirst.placed.1).behind hfirst
          -- a block that is not there or not closed leaves the run of code to be tried
          | miss offset lack | stop offset lack => exact (quiet_codeItem hitems (skipGap c) n' hhere).behind hfirst

theorem quiet_code : Quiet s (fun _ => True) code := by
  intro c n hc
  have hblock := ((quiet_block (3 * (skip c n).1.left + 3)).1 _ (skip c n).2 (hc.skip n)).behind_skip hc
  unfold code
  dsimp only
  generalize blockUpTo (3 * (skip c n).1.left + 3) (skip c n).1 (skip c n).2 = result at hblock
  obtain ⟨reply, n'⟩ := result
  cases reply with
  | done _ next => exact ⟨hblock.notes, hblock.fault, hblock.placed.1, .inl trivial⟩
  | miss offset lack | stop offset lack => exact ⟨hblock.notes, hblock.fault, hblock.placed⟩

namespace Explains

theorem truthValue : Accounts s truthValue :=
  ((keyword "true").bind fun _ => pure trivial).orElse ((keyword "false").bind fun _ => pure trivial)

theorem nullWord : Accounts s nullWord := (keyword "null").bind fun _ => pure trivial

theorem values (bound : Nat) :
    Explains s (fun value => value.isWritable = true) (valueUpTo bound) ∧
      Explains s (fun value => value.isWritable = true) (recordUpTo bound) := by
  induction bound with
  | zero => exact ⟨missing _, missing _⟩
  | succ bound ih =>
    obtain ⟨hvalue, hrecord⟩ := ih
    constructor
    · refine choice ?_
      simp only [forall_mem_cons, not_mem_nil, false_implies, implies_true, and_true]
      refine ⟨nullWord.bind fun _ => pure (by simp [Json.isWritable]),
        truthValue.bind fun _ => pure (by simp [Json.isWritable]), number,
        (token _ _).bind fun _ => pure (by simp [Json.isWritable]), ?_, hrecord⟩
      refine (mark "[").bind fun _ => (hvalue.sepBy (mark ",")).bindWith fun items =>
        (mark "]").bind fun _ => pure fun hitems => ?_
      rw [Json.isWritable, Json.areWritable_iff]
      exact hitems
    · have hkey : Accounts s (Parser.orElse quotedMeaning plainName) :=
        (token _ _).orElse (name _ _ _)
      have hfield : Explains s (fun pair : String × Json => pair.2.isWritable = true) _ :=
        hkey.bind fun key => (mark ":").bind fun _ => hvalue.bindWith fun value =>
          pure (a := (key, value)) fun h => h
      refine (mark _).bind fun _ => (hfield.optional.sepBy ((mark ";").orElse (mark ","))).bindWith
        fun fields => (mark _).bind fun _ => pure fun hfields => ?_
      refine Json.isWritable_ofPairs fun pair hpair => ?_
      obtain ⟨found, hfound, heq⟩ := mem_filterMap.mp hpair
      exact hfields found hfound pair heq

theorem plainValue : Explains s (fun value => value.isWritable = true) plainValue :=
  sized (p := fun c => valueUpTo (3 * c.left + 3)) fun c => (values (3 * c.left + 3)).1

theorem record : Accounts s record :=
  (sized (p := fun c => recordUpTo (3 * c.left + 3)) fun c => (values (3 * c.left + 3)).2).accounts

end Explains

end QmlScript.Grammar
