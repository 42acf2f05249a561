import QmlScript.Proofs.Declaration.RoundTrip
import QmlScript.Proofs.Faults

/-!
# Integer literals

A natural number stands in a source as the value of a constant, as a field of a row, or in an expression. It is
read as that number, in base ten and in base sixteen, as long as no letter is among its digits.
-/

namespace QmlScript.Grammar

open QmlScript.Grammar.Parser List

variable {c : Cursor} {notes : Notes} {rest : List Char} {bound : Nat} {x : Char}

/-- A natural number in base ten with few enough digits, or in base sixteen without letters. -/
inductive IntegerLiteral where
  | decimal (n : Nat) (short : n < 10 ^ Number.mostDigits)
  | hexadecimal (n : Nat) (plain : ∀ x ∈ Nat.toDigits 16 n, x.isDigit = true)

def IntegerLiteral.value : IntegerLiteral → Nat
  | .decimal n _ => n
  | .hexadecimal n _ => n

def IntegerLiteral.chars : IntegerLiteral → List Char
  | .decimal n _ => Nat.toDigits 10 n
  | .hexadecimal n _ => '0' :: 'x' :: Nat.toDigits 16 n

theorem IntegerLiteral.fresh (l : IntegerLiteral) : Fresh (l.chars ++ rest) := by
  cases l with
  | decimal n => exact fresh_digits n
  | hexadecimal n => exact fresh_of_class (p := Char.isDigit) (by decide) (by decide)

theorem numberValue_hexadecimal {n : Nat} (h : ∀ x ∈ Nat.toDigits 16 n, x.isDigit = true) :
    numberValue (String.ofList ('0' :: 'x' :: Nat.toDigits 16 n)) = .ok (.int n) := by
  have hbase : startsWithText "0x" (String.ofList ('0' :: 'x' :: Nat.toDigits 16 n)) = true := by
    rw [startsWithText, String.toList_ofList, String.toList_ofList]
    exact startsWith_append ['0', 'x'] _
  have hread := Number.readInt?_digits (by decide) (by decide) h
  rw [numberValue, if_pos hbase, Number.readInt, if_neg (by decide)]
  simp [hread, Except.map]

theorem numeral?_hexadecimal {n : Nat} (h : ∀ x ∈ Nat.toDigits 16 n, x.isDigit = true) :
    numeral? ('0' :: 'x' :: Nat.toDigits 16 n) = some (String.ofList ('0' :: 'x' :: Nat.toDigits 16 n)) := by
  have hrun : (Nat.toDigits 16 n).takeWhile isNumberChar = Nat.toDigits 16 n :=
    takeWhile_eq_self_iff.mpr fun y hy => by simp [isNumberChar, h y hy]
  have hmark : markSize ('0' :: 'x' :: Nat.toDigits 16 n) = 2 := rfl
  have hsize : runSize ('0' :: 'x' :: Nat.toDigits 16 n) = (Nat.toDigits 16 n).length := congrArg length hrun
  rw [numeral?, hmark, hsize, if_neg (by simp), take_of_length_le]
  simp only [length_cons]
  omega

theorem IntegerLiteral.number_done (l : IntegerLiteral)
    (hrest : EndsNumber rest) (hf : c.Faces (l.chars ++ rest)) :
    number c notes = (.done (.int l.value) (c.reach rest), notes) := by
  cases l with
  | decimal n short => rw [number_digits n hrest hf, numberValue_repr, if_pos short, value]
  | hexadecimal n plain =>
    have hfresh : Fresh (_ ++ rest) := (IntegerLiteral.hexadecimal n plain).fresh
    rw [number_word (numeral?_hexadecimal plain) hfresh.solid hrest hf, numberValue_hexadecimal plain, value]

theorem IntegerLiteral.takes_value (l : IntegerLiteral) (hx : isNumberChar x = false ∧ x ≠ 'x') :
    Takes (valueUpTo (bound + 1)) (' ' :: l.chars) (· = .int l.value) (x :: rest) := by
  refine (takes_of_done fun c notes hf => ?_).behind_blank
  have hs : Fresh (l.chars ++ x :: rest) := l.fresh
  rw [valueUpTo, plainValueOf]
  refine choice_of_misses (hs.noLiteral hf).nullWord.bind (choice_of_misses (hs.noLiteral hf).truthValue.bind ?_)
  refine choice_done (l.number_done ?_ hf)
  rintro y ⟨rfl⟩
  exact hx

/-- As an operand, a literal stands for its number in base ten. -/
theorem IntegerLiteral.reads_operand (l : IntegerLiteral) (hshort : l.value < 10 ^ Number.mostDigits)
    (h : Borders true rest) : Reads (operand (bound + 1)) l.chars l.value.repr rest := by
  intro c notes hf hclear
  have hwritable : (Json.int l.value).isWritable = true := Json.isWritable_int.mpr (by simpa using hshort)
  have hnumber : number c notes = _ := l.number_done h.ends_number hf
  rw [operand_of_number bound l.fresh h hf hf.reach hnumber hnumber, written_done hwritable]
  rfl

abbrev ConstantName := Ident Char.isUpper isNameChar

instance : Spelling Char.isUpper isNameChar where
  first_ok := fun _ h => .inl (isAlpha_of_isUpper h)
  other_ok := fun _ => isPathChar_of_isNameChar

inductive IntegerUse where
  | constant (type : PropertyType) (name : ConstantName) (value : IntegerLiteral)
  | row (first : PlainName × IntegerLiteral) (others : List (PlainName × IntegerLiteral))
  | expression (target : PathName) (value : IntegerLiteral) (short : value.value < 10 ^ Number.mostDigits)

def fieldChars (field : PlainName × IntegerLiteral) : List Char := field.1.chars ++ ([':'] ++ ' ' :: field.2.chars)

def fieldsChars (first : PlainName × IntegerLiteral) (others : List (PlainName × IntegerLiteral)) : List Char :=
  fieldChars first ++ others.flatMap fun field => [';', ' '] ++ fieldChars field

def IntegerUse.chars : IntegerUse → List Char
  | .constant type name value =>
    ' ' :: "const".toList ++ (' ' :: type.chars ++ (' ' :: name.chars ++ ([':'] ++ (' ' :: value.chars ++ [';']))))
  | .row first others =>
    ' ' :: "ListElement".toList ++ ([' ', '\x7b'] ++ (' ' :: fieldsChars first others ++ [' ', '\x7d']))
  | .expression target value _ => ' ' :: target.chars ++ ([':'] ++ (' ' :: value.chars ++ [';']))

def IntegerUse.node : IntegerUse → Node Unit
  | .constant type name value => .const () type.text name.text (.int value.value)
  | .row first others => .row (.ofPairs ((first :: others).map fun field => (field.1.text, .int field.2.value)))
  | .expression target value _ => .assignment () target.text (.text (parenthesised value.value.repr))

theorem Takes.checked {α : Type} {p : Parser α} {s : List Char} {P : α → Prop} (h : Takes p s P rest) :
    Takes (checked p) s P rest := by
  intro c notes hf hfault
  obtain ⟨a, c', notes', hdone, ha, hc', hfault'⟩ := h c notes hf hfault
  exact ⟨a, c', notes', checked_done hdone hfault', ha, hc', hfault'⟩

theorem takes_constant (type : PropertyType) (name : ConstantName) (value : IntegerLiteral) :
    TakesTree constantDeclaration (IntegerUse.constant type name value).chars
      (IntegerUse.constant type name value).node rest := by
  refine (takes_opener rfl).bind fun _ _ => ?_
  refine (type.takes apart_blank).behind_blank.bind_eq ?_
  refine (name.takes_before rfl).bind_eq ?_
  refine takes_colon.bind fun _ _ => ?_
  have hvalue : Takes plainValue (' ' :: value.chars) (· = .int value.value) ([';'] ++ rest) :=
    fun c => value.takes_value (by decide) c
  refine hvalue.checked.bind_eq ?_
  exact takes_semicolon.bind_nil fun _ _ => takes_finish fun _ => rfl

/-- All that comes before constants takes their word for a name. -/
theorem takes_declared_constant (type : PropertyType) (name : ConstantName) (value : IntegerLiteral) :
    TakesTree (declarationUpTo (bound + 1)) (IntegerUse.constant type name value).chars
      (IntegerUse.constant type name value).node rest := by
  have hconstant := @takes_constant rest type name value
  rw [IntegerUse.chars] at hconstant ⊢
  generalize htail : ' ' :: name.chars ++ ([':'] ++ (' ' :: value.chars ++ [';'])) = tail at hconstant ⊢
  have htype : Stands type.chars (tail ++ rest) := type.stands (by rw [← htail]; exact apart_blank)
  have hword : Stands "const".toList ((' ' :: type.chars ++ tail) ++ rest) := stands_opener rfl apart_blank
  have hmark : ∀ {word : String} {y : Char}, word.toList = [y] → isMark y = true →
      Fails (mark word) ((' ' :: type.chars ++ tail) ++ rest) := by
    intro word y hword hy
    rw [append_assoc]
    exact (htype.fails_mark hword hy).behind_blank
  have hasync : Takes (optional (keyword "async")) [] (fun o => o.isSome = false)
      ((' ' :: "const".toList ++ (' ' :: type.chars ++ tail)) ++ rest) := takes_async false (fails_opener rfl)
  refine takes_worded rfl (by decide) htype ?_
  refine Fails.choice ?_ (Fails.choice ?_ (Fails.choice ?_ hconstant))
  · rw [handlerDeclaration_eq]
    exact hasync.bind_fails fun o _ => hword.handler_fails o.isSome fun hchar hy => hmark hchar (isMark_of_mem hy).1
  · rw [functionDeclaration_eq]
    exact hasync.bind_fails fun o _ => (fails_opener rfl).bind
  · exact (hword.name_fails fun _ => (hmark rfl rfl).bind).behind_blank

def recordField (bound : Nat) : Parser (String × Json) := do
  let key ← orElse quotedMeaning plainName
  mark ":"
  let value ← valueUpTo bound
  return (key, value)

theorem takes_recordField (field : PlainName × IntegerLiteral) (hx : isNumberChar x = false ∧ x ≠ 'x') :
    Takes (recordField (bound + 1)) (fieldChars field) (· = (field.1.text, .int field.2.value)) (x :: rest) := by
  have hquote : isQuote field.1.head = false := by
    cases hq : isQuote field.1.head with
    | false => rfl
    | true => exact absurd field.1.head_ok (by simp [(initial_of_isQuote hq).small])
  have hname : Apart (([':'] ++ ' ' :: field.2.chars) ++ x :: rest) := apart_mark rfl
  have hquoted : Fails quotedMeaning (field.1.chars ++ (([':'] ++ ' ' :: field.2.chars) ++ x :: rest)) :=
    fails_of_misses fun _ _ hf =>
      (hf.meets (field.1.solid hname)).token_misses (by simp [Word.chars, quotedString?, hquote])
  refine (hquoted.orElse (field.1.takes hname)).bind_eq ?_
  refine takes_colon.bind fun _ _ => ?_
  refine (field.2.takes_value hx).bind_nil ?_
  rintro _ rfl
  exact takes_pure rfl

def EndsField (s : List Char) : Prop := ∃ x t, s = x :: t ∧ (x = ';' ∨ x = ' ')

theorem takes_record (first : PlainName × IntegerLiteral) (others : List (PlainName × IntegerLiteral)) :
    Takes (recordUpTo (bound + 2)) ([' ', '\x7b'] ++ (' ' :: fieldsChars first others ++ [' ', '\x7d']))
      (· = .ofPairs ((first :: others).map fun field => (field.1.text, .int field.2.value))) rest := by
  have hfield : ∀ field ∈ first :: others, ∀ t, EndsField t →
      Takes (recordField (bound + 1)).optional (fieldChars field)
        (· = some (field.1.text, Json.int field.2.value)) t := by
    rintro field - t ⟨x, t, rfl, hx⟩
    have hend : isNumberChar x = false ∧ x ≠ 'x' := by rcases hx with rfl | rfl <;> decide
    refine (takes_recordField field hend).optional.mono ?_
    rintro _ ⟨a, rfl, rfl⟩
    rfl
  have hsep : ∀ t, Takes (orElse (mark ";") (mark ",")) [';', ' '] (fun _ => True) t := fun t =>
    (takes_mark (x := ';') rfl rfl).before_blank.orElse
  have hend : Fails (orElse (mark ";") (mark ",")) ([' ', '\x7d'] ++ rest) :=
    ((fails_mark rfl rfl (by decide)).or (fails_mark rfl rfl (by decide))).behind_blank
  have hfields := takes_sepBy hfield hsep (by simp) (fun _ => ⟨_, _, rfl, .inl rfl⟩) ⟨_, _, rfl, .inr rfl⟩ hend
  rw [recordUpTo, recordOf]
  refine takes_opening.bind fun _ _ => ?_
  refine hfields.behind_blank.bind_eq ?_
  refine takes_closing.bind_nil fun _ _ => takes_pure ?_
  rw [filterMap_map]
  exact congrArg Json.ofPairs (congrFun filterMap_eq_map _)

theorem IntegerUse.takes (use : IntegerUse) :
    TakesTree (declarationUpTo (bound + 1)) use.chars use.node rest := by
  cases use with
  | constant type name value => exact takes_declared_constant type name value
  | row first others =>
    have hrecord : Takes record ([' ', '\x7b'] ++ (' ' :: fieldsChars first others ++ [' ', '\x7d']))
        (fun value => Node.row value = (IntegerUse.row first others).node) rest := by
      intro c notes hf
      have hleft := hf.length_le
      simp only [cons_append, length_cons] at hleft
      obtain ⟨b, hb⟩ : ∃ b, c.left = b + 1 := ⟨c.left - 1, by omega⟩
      rw [record, hb]
      exact (takes_record first others).mono (fun _ h => congrArg Node.row h) c notes hf
    rw [declarationUpTo_succ]
    refine Takes.choice ((takes_opener rfl).bind fun _ _ => ?_)
    exact hrecord.checked.required.bind_nil fun _ h => takes_pure h
  | expression target value short =>
    have hvalue : Takes checkedExpression (' ' :: value.chars) (· = parenthesised value.value.repr) (';' :: rest) :=
      takes_checkedExpression (by decide) fun bound => reads_unsigned value.fresh.solid value.fresh.unsigned
        (value.reads_operand short (borders_of_mem (.inl rfl)))
    refine takes_named ?_ (takes_assignmentTo target hvalue).choice
    rw [IntegerUse.chars, append_assoc]
    exact target.leading_fails (apart_mark rfl)

theorem IntegerUse.chars_ne_nil (use : IntegerUse) : use.chars ≠ [] := by
  cases use <;> simp [IntegerUse.chars]

def countingSource (type : TypeName) (uses : List IntegerUse) : List Char :=
  componentChars type (uses.flatMap IntegerUse.chars)

/-- Constants, rows and expressions have the numbers that their literals are written for; so has a literal that is
an operand of a larger expression. -/
theorem parse_integers (history : History) (type : TypeName) (uses : List IntegerUse) :
    (parse history (String.ofList (countingSource type uses))).result.map Node.undocumented =
      .ok (.component () type.text (uses.map IntegerUse.node)) ∧
    ∀ (l : IntegerLiteral) (rest : List Char) (bound : Nat), l.value < 10 ^ Number.mostDigits → Borders true rest →
      Reads (operand (bound + 1)) l.chars l.value.repr rest := by
  refine ⟨?_, fun l rest bound hshort h => l.reads_operand hshort h⟩
  have htakes : ∀ bound, (countingSource type uses).length ≤ bound → Takes (componentUpTo bound)
      (countingSource type uses) (·.undocumented = .component () type.text (uses.map IntegerUse.node)) [] := by
    intro bound hbound
    simp only [countingSource, componentChars, length_append, length_cons] at hbound
    obtain ⟨bound, rfl⟩ : ∃ b, bound = b + 2 := ⟨bound - 2, by omega⟩
    exact takes_component_of (fun use _ => use.chars_ne_nil) fun use _ _ => use.takes
  obtain ⟨tree, c, notes, hsource, htree, hfault⟩ := source_of_takes history htakes
  rw [parse_result_of_done hsource hfault, Except.map, Notes.undocumented_resolve, htree]

theorem isDigit_sixteen : ∀ x ∈ Nat.toDigits 16 16, x.isDigit = true := all_eq_true.1 (by decide)

theorem sixteen_short : 16 < 10 ^ Number.mostDigits :=
  Nat.lt_of_lt_of_le (m := 10 ^ 2) (by decide) (Nat.pow_le_pow_right (by decide) (by decide))

theorem parse_integers_sixteen :
    (parse {} "P \x7b const int A: 0x10; ListElement \x7b a: 16; a: 0x10 \x7d a: 0x10; \x7d").result.map
        Node.undocumented = .ok (.component () "P" [.const () "int" "A" (.int 16), .row (.obj [("a", .int 16)]),
          .assignment () "a" (.text "(16)")]) ∧
      Reads (operand 1) ['0', 'x', '1', '0'] (Nat.repr 16) [','] := by
  obtain ⟨hresult, hreads⟩ := parse_integers {} plainType <|
    let a : PlainName := ⟨⟨'a', [], rfl, rfl⟩, by decide⟩
    let name : ConstantName := ⟨⟨'A', [], rfl, rfl⟩, by decide⟩
    let int : PropertyType := ⟨⟨'i', ['n', 't'], rfl, rfl⟩, by decide⟩
    let sixteen : IntegerLiteral := .hexadecimal 16 isDigit_sixteen
    [.constant int name sixteen, .row (a, .decimal 16 sixteen_short) [(a, sixteen)],
      .expression a.path sixteen sixteen_short]
  exact ⟨hresult, hreads (.hexadecimal 16 isDigit_sixteen) [','] 0 sixteen_short (borders_of_mem (.inr rfl))⟩

/-- A number is refused for a letter among its digits. -/
theorem letter_digits_refused :
    (parse {} "T \x7b const int A: 0xff; \x7d").result.isOk = false ∧
      (parse {} "T \x7b ListElement \x7b a: 0x1F \x7d \x7d").result.isOk = false ∧
      (parse {} "T \x7b p: 0xff; \x7d").result.isOk = false := by
  refine ⟨?_, ?_, ?_⟩ <;> decide +kernel

end QmlScript.Grammar
