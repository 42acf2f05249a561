import Mathlib.Data.List.DropRight
import Mathlib.Data.List.Infix
import QmlScript.Proofs.Localization.Catalog

/-!
# Literals that are found

A request for a localized text is found exactly if the search comes to the character in front of the call, and
no parenthesis, quote, backslash or line break hides where the literal ends. It does not know where its call stands:
the location of a new message is right only if the call is on the first line.
-/

namespace QmlScript.Text

open List

variable {α : Type}

/-- Recognises every text and goes on as `find` does: what it finds are the places where `find` is asked. -/
def visit (find : Recogniser α) : Recogniser (List Char) := fun s => some (s, ((find s).map Prod.snd).getD 1)

theorem findAll_eq_visit (find : Recogniser α) (s : List Char) :
    findAll find s = (findAll (visit find) s).filterMap fun t => (find t).map Prod.fst := by
  unfold findAll
  generalize 0 = skip
  induction s generalizing skip with
  | nil => rfl
  | cons c s ih =>
    cases skip with
    | zero =>
      rw [findAllFrom, findAllFrom, visit]
      cases hfind : find (c :: s) <;> simp [hfind, ih]
    | succ skip => exact ih skip

/-- A text is searched from its start to its end. -/
theorem findAll_visit_sublist (find : Recogniser α) (s : List Char) : findAll (visit find) s <+ s.tails := by
  unfold findAll
  generalize 0 = skip
  induction s generalizing skip with
  | nil => exact nil_sublist _
  | cons c s ih =>
    rw [tails]
    cases skip with
    | zero => exact (ih _).cons_cons _
    | succ skip => exact (ih skip).cons _

end QmlScript.Text

namespace QmlScript.Localization

open List Text

variable {s : List Char} {quote before : Char} {c : Char} {place : List Char}

/-- A text up to its first closing parenthesis, without blanks before it. -/
def beforeClose (s : List Char) : List Char := (s.takeWhile (· ≠ ')')).rdropWhile isBlank

theorem beforeClose_cons (hc : c ≠ ')') (s : List Char) :
    beforeClose (c :: s) = if isBlank c = true ∧ beforeClose s = [] then [] else c :: beforeClose s := by
  simp only [beforeClose, takeWhile_cons, decide_eq_true hc, if_true, rdropWhile, reverse_cons, dropWhile_append,
    reverse_eq_nil_iff]
  by_cases hblank : isBlank c = true <;> split <;> simp_all

theorem beforeClose_append {front : List Char} {x : Char} (hfront : ')' ∉ front) (hx : x ≠ ')')
    (hblank : isBlank x = false)
    (back : List Char) : beforeClose (front ++ x :: back) = front ++ x :: beforeClose back := by
  induction front with
  | nil => simp [beforeClose_cons hx, hblank]
  | cons y front ih =>
    obtain ⟨hy, hfront⟩ := not_or.1 (mt mem_cons.2 hfront)
    simp [beforeClose_cons (Ne.symm hy), ih hfront]

theorem close_not_mem_beforeClose (s : List Char) : ')' ∉ beforeClose s := fun h => by
  simpa using mem_takeWhile_imp (( rdropWhile_prefix _ _).subset h)

theorem behindClose?_eq (s : List Char) :
    behindClose? s = if ')' ∈ s ∧ beforeClose s = [] then some (s.dropWhile (· ≠ ')')).tail else none := by
  induction s with
  | nil => rfl
  | cons c s ih =>
    by_cases hclose : c = ')'
    · subst hclose
      rfl
    by_cases hblank : isBlank c = true
    · have hrest : behindClose? (c :: s) = behindClose? s := by simp [behindClose?, dropBlank, hblank]
      simp [hrest, ih, beforeClose_cons hclose, hclose, hblank, Ne.symm hclose]
    · simp [behindClose?, dropBlank, beforeClose_cons hclose, hclose, hblank]

/-- Arguments end at the first closing parenthesis, and on one line. -/
theorem arguments?_eq (s : List Char) :
    arguments? s =
      if ')' ∈ s ∧ '\n' ∉ beforeClose s then some (beforeClose s, (s.dropWhile (· ≠ ')')).tail) else none := by
  induction s with
  | nil => rfl
  | cons c s ih =>
    by_cases hclose : c = ')'
    · subst hclose
      rfl
    rw [arguments?, behindClose?_eq, ih, beforeClose_cons hclose]
    by_cases hmem : ')' ∈ s
    · by_cases hempty : isBlank c = true ∧ beforeClose s = []
      · simp [hmem, hempty]
      · rw [if_neg hempty]
        by_cases hbreak : c = '\n'
        · simp [hbreak]
        · by_cases hline : '\n' ∈ beforeClose s <;> simp [hmem, hclose, hbreak, hline, Ne.symm hbreak]
    · simp [hmem, Ne.symm hclose]

/-- Whether a text has a quote without a backslash before it; `before` is the character in front. -/
def hasQuote (quote : Char) : (before : Char) → List Char → Bool
  | _, [] => false
  | before, c :: s => (c = quote && before ≠ '\\') || hasQuote quote c s

theorem upToLastQuote?_eq_none_iff : upToLastQuote? quote before s = none ↔ hasQuote quote before s = false := by
  induction s generalizing before with
  | nil => simp [upToLastQuote?, hasQuote]
  | cons c s ih =>
    rw [upToLastQuote?, hasQuote, Bool.or_eq_false_iff, ← ih]
    cases upToLastQuote? quote c s <;> simp

theorem upToLastQuote?_eq_some_iff {text : List Char} :
    upToLastQuote? quote before s = some text ↔
      ∃ rest, s = text ++ quote :: rest ∧ text.getLastD before ≠ '\\' ∧ hasQuote quote quote rest = false := by
  induction s generalizing before text with
  | nil => simp [upToLastQuote?]
  | cons c s ih =>
    rw [upToLastQuote?]
    cases text with
    | nil =>
      simp only [nil_append, cons.injEq, getLastD_nil, ← upToLastQuote?_eq_none_iff]
      cases hfound : upToLastQuote? quote c s <;> grind
    | cons d text =>
      have ih := @ih c text
      simp only [cons_append, cons.injEq, getLastD_cons]
      cases hfound : upToLastQuote? quote c s <;> grind

/-- Of two names that start alike, the longer goes on with a letter. -/
theorem functions_split {name : String} (hname : name ∈ functions) : ∃ front back, functions = front ++ name :: back ∧
    ∀ other ∈ front, ∀ s, (after? other.toList (name.toList ++ s)).bind callArguments? = none := by
  simp only [functions, mem_cons, not_mem_nil, or_false] at hname
  rcases hname with rfl | rfl | rfl | rfl | rfl
  · exact ⟨[], _, rfl, forall_mem_nil _⟩
  · exact ⟨["qsTr"], _, rfl, forall_mem_singleton.2 fun _ => rfl⟩
  · refine ⟨functions.take 2, _, rfl, ?_⟩
    simp only [functions, take, forall_mem_cons]
    exact ⟨fun _ => rfl, fun _ => rfl, forall_mem_nil _⟩
  · refine ⟨functions.take 3, _, rfl, ?_⟩
    simp only [functions, take, forall_mem_cons]
    exact ⟨fun _ => rfl, fun _ => rfl, fun _ => rfl, forall_mem_nil _⟩
  · refine ⟨functions.take 4, _, rfl, ?_⟩
    simp only [functions, take, forall_mem_cons]
    exact ⟨fun _ => rfl, fun _ => rfl, fun _ => rfl, fun _ => rfl, forall_mem_nil _⟩

theorem call?_append (hc : isWordChar c = false) {name : String} (hname : name ∈ functions)
    {args rest : List Char}
    (hs : callArguments? s = some (args, rest)) :
    ∃ n, call? (c :: (name.toList ++ s)) = some ((name, args), n) := by
  obtain ⟨front, back, hsplit, hfront⟩ := functions_split hname
  rw [call?, hc, hsplit, findSome?_append, findSome?_eq_none_iff.2, findSome?_cons, after?_append]
  · simp [hs]
  · intro other hother
    have hnone := hfront other hother s
    cases h : after? other.toList (name.toList ++ s) <;> simp_all

/-- A call for the text of a literal, up to the end of the literal. -/
structure Call where
  function : String
  gap : List Char
  pad : List Char
  quote : Char
  content : List Char
  known : function ∈ functions
  blank : ∀ x ∈ gap ++ pad, isBlank x = true
  quoted : quote = '"' ∨ quote = '\''
  line : '\n' ∉ content

namespace Call

def request (call : Call) : Request := { function := call.function, source := String.ofList call.content }

/-- What follows the name of the function, up to the end of the literal. -/
def behindName (call : Call) : List Char :=
  call.gap ++ '(' :: (call.pad ++ call.quote :: (call.content ++ [call.quote]))

def text (call : Call) : List Char := call.function.toList ++ call.behindName

/-- Nothing hides where the literal of a call ends: no parenthesis in it, no backslash at its end, and no such quote
behind it up to the next parenthesis, on its line. -/
def IsPlain (call : Call) (back : List Char) : Prop :=
  ')' ∉ call.content ∧ call.content.getLastD call.quote ≠ '\\' ∧ ')' ∈ back ∧ '\n' ∉ beforeClose back ∧
    hasQuote call.quote call.quote (beforeClose back) = false

instance (call : Call) (back : List Char) : Decidable (call.IsPlain back) := inferInstanceAs (Decidable (_ ∧ _))

theorem callArguments?_behindName (call : Call) (back : List Char) :
    callArguments? (call.behindName ++ back) = arguments? (call.quote :: (call.content ++ call.quote :: back)) := by
  have hblank := forall_mem_append.1 call.blank
  have hmark : isBlank call.quote = false := by
    rcases call.quoted with h | h <;> rw [h] <;> rfl
  have hgap : ∀ s, dropBlank (call.gap ++ '(' :: s) = '(' :: s := fun s => by
    rw [dropBlank, dropWhile_append_of_pos hblank.1]
    rfl
  have hpad : ∀ s, dropBlank (call.pad ++ call.quote :: s) = call.quote :: s := fun s => by
    rw [dropBlank, dropWhile_append_of_pos hblank.2, dropWhile_cons_of_neg (by simp [hmark])]
  simp only [callArguments?, behindName, append_assoc, cons_append, hgap, hpad, nil_append]

theorem firstText?_iff (call : Call) (back : List Char) :
    (∃ args rest, callArguments? (call.behindName ++ back) = some (args, rest) ∧ firstText? args = some call.content) ↔
      call.IsPlain back := by
  have hfirst : ∀ args, firstText? (call.quote :: args) = upToLastQuote? call.quote call.quote args := by
    rcases call.quoted with h | h <;> rw [h] <;> exact fun _ => rfl
  have hmark : ')' ≠ call.quote ∧ '\n' ≠ call.quote ∧ isBlank call.quote = false := by
    rcases call.quoted with h | h <;> rw [h] <;> decide
  have hargs : beforeClose (call.quote :: (call.content ++ call.quote :: back)) =
      call.quote :: beforeClose (call.content ++ call.quote :: back) := by
    rw [beforeClose_cons hmark.1.symm, if_neg (by simp [hmark.2.2])]
  rw [callArguments?_behindName, arguments?_eq, hargs]
  constructor
  · rintro ⟨args, rest, h, htext⟩
    split at h
    · rename_i hline
      cases h
      obtain ⟨more, hsplit, hend, hquote⟩ := upToLastQuote?_eq_some_iff.1 ((hfirst _).symm.trans htext)
      have hclose : ')' ∉ call.content := fun h => close_not_mem_beforeClose _ (hsplit ▸ mem_append_left _ h)
      rw [beforeClose_append hclose hmark.1.symm hmark.2.2] at hsplit hline
      cases append_cancel_left hsplit
      simp_all [IsPlain]
    · cases h
  · rintro ⟨hclose, hend, hmem, hline, hquote⟩
    rw [beforeClose_append hclose hmark.1.symm hmark.2.2, if_pos (by simp_all [call.line])]
    exact ⟨_, _, rfl, (hfirst _).trans (upToLastQuote?_eq_some_iff.2 ⟨_, rfl, hend, hquote⟩)⟩

end Call

/-- The request that a text asks for behind its first character. -/
def requestAt? (s : List Char) : Option Request :=
  (call? s).bind fun ((function, args), _) =>
    (firstText? args).map fun source => { function, source := String.ofList source }

theorem requests_eq (text : String) : requests text = (findAll (visit call?) text.toList).filterMap requestAt? := by
  rw [requests, findAll_eq_visit call?, filterMap_filterMap]
  refine filterMap_congr fun s _ => ?_
  cases h : call? s <;> simp [requestAt?, h]

theorem Call.requestAt?_iff (call : Call) {back : List Char} :
    requestAt? (c :: (call.text ++ back)) = some call.request ↔ isWordChar c = false ∧ call.IsPlain back := by
  rw [← firstText?_iff, requestAt?, Call.text, append_assoc]
  constructor
  · intro h
    obtain ⟨⟨⟨function, args⟩, n⟩, hcall, h⟩ := Option.bind_eq_some_iff.1 h
    obtain ⟨source, hsource, h⟩ := Option.map_eq_some_iff.1 h
    obtain ⟨rfl, hcontent, -⟩ := Request.mk.inj h
    rw [call?] at hcall
    split at hcall
    · cases hcall
    · rename_i hc
      obtain ⟨name, -, hcall⟩ := exists_of_findSome?_eq_some hcall
      obtain ⟨t, ht, hcall⟩ := Option.bind_eq_some_iff.1 hcall
      obtain ⟨⟨args, rest⟩, hargs, hcall⟩ := Option.bind_eq_some_iff.1 hcall
      cases hcall
      rw [← append_cancel_left (eq_append_of_after? ht)] at hargs
      exact ⟨by simpa using hc, args, rest, hargs, by rw [hsource, String.ofList_inj.1 hcontent]⟩
  · rintro ⟨hc, args, rest, hargs, htext⟩
    obtain ⟨n, hcall⟩ := call?_append hc call.known hargs
    simp [hcall, htext, request]

/-- The literal of a call is found exactly if a character of no word stands in front of the call, the search comes
there, and nothing hides where the literal ends. Requests are found in the order of the text. -/
theorem literal_found_iff (call : Call) (front back : List Char) (text : String)
    (htext : text.toList = front ++ (call.text ++ back)) :
    ((∃ place ∈ findAll (visit call?) text.toList,
        place.tail = call.text ++ back ∧ requestAt? place = some call.request) ↔
      (∃ c ∈ front.getLast?, isWordChar c = false ∧ c :: (call.text ++ back) ∈ findAll (visit call?) text.toList) ∧
        call.IsPlain back) ∧
    requests text = (findAll (visit call?) text.toList).filterMap requestAt? ∧
    findAll (visit call?) text.toList <+ text.toList.tails := by
  refine ⟨?_, requests_eq text, findAll_visit_sublist call? _⟩
  constructor
  · rintro ⟨place, hplace, htail, hrequest⟩
    cases place with
    | nil => cases hrequest
    | cons c place =>
      obtain rfl : place = call.text ++ back := htail
      obtain ⟨start, hstart⟩ := htext ▸ (mem_tails _ _).1 ((findAll_visit_sublist call? _).subset hplace)
      rw [append_cons, append_cancel_right_eq] at hstart
      obtain ⟨hc, hplain⟩ := call.requestAt?_iff.1 hrequest
      exact ⟨⟨c, by simp [← hstart], hc, hplace⟩, hplain⟩
  · rintro ⟨⟨c, -, hc, hplace⟩, hplain⟩
    exact ⟨_, hplace, rfl, call.requestAt?_iff.2 ⟨hc, hplain⟩⟩

theorem literal_found_greeting :
    ∃ place ∈ findAll (visit call?) "a = qsTr (\"Hi, \\\"you\\\"\", 1)".toList,
      requestAt? place = some { function := "qsTr", source := "Hi, \\\"you\\\"" } := by
  obtain ⟨⟨place, hplace, -, hrequest⟩, -⟩ := literal_found_iff
    ⟨"qsTr", [' '], [], '"', "Hi, \\\"you\\\"".toList, by decide, forall_mem_singleton.2 rfl, .inl rfl, by decide⟩
      "a = ".toList ", 1)".toList
    "a = qsTr (\"Hi, \\\"you\\\"\", 1)" (by decide +kernel) |>.imp_left
      (·.2 ⟨⟨' ', by decide +kernel⟩, by decide +kernel⟩)
  exact ⟨place, hplace, hrequest⟩

/-- A parenthesis in the literal hides its end. -/
theorem hidden_literal : requests " qsTr(\"a)\")" = [] := by
  decide +kernel

theorem lineAt_zero_eq_iff {text : String} {offset : Nat} :
    lineAt text 0 = lineAt text offset ↔ '\n' ∉ text.toList.take offset := by
  rw [lineAt, lineAt, take_zero, count_nil, Nat.add_right_cancel_iff, eq_comm, count_eq_zero]

theorem exists_front_of_visit {text : String} (h : place ∈ findAll (visit call?) text.toList) :
    ∃ front, text.toList = front ++ place := by
  obtain ⟨front, hfront⟩ := (mem_tails _ _).1 ((findAll_visit_sublist call? _).subset h)
  exact ⟨front, hfront.symm⟩

theorem position_of_requestAt? {request : Request} (h : requestAt? place = some request) :
    request.position = 0 := by
  obtain ⟨found, -, h⟩ := Option.bind_eq_some_iff.1 h
  obtain ⟨source, -, rfl⟩ := Option.map_eq_some_iff.1 h
  rfl

/-- Every request has the start of the text as its place, although its call starts behind the character that
stands in front of it. The line of a new message is the first one; it is the line of the call that asked for the
message exactly if there is no line break in front of that call. -/
theorem location_at_call_iff {tree : FileTree} {catalog catalog' : Catalog} {path context text : String}
    (htext : tree.read path = .ok text) (hscan : catalog.scanFile tree path context = .ok catalog') :
    (∀ place ∈ findAll (visit call?) text.toList, ∀ request, requestAt? place = some request →
      request.position = 0 ∧ ∃ front, text.toList = front ++ place ∧
        (lineAt text request.position = lineAt text (front.length + 1) ↔ '\n' ∉ text.toList.take (front.length + 1))) ∧
    ∀ source m, catalog.message? context source = none → catalog'.message? context source = some m →
      ∃ place front, text.toList = front ++ place ∧
        (findAll (visit call?) text.toList).find? (fun s => (requestAt? s).any (·.source = source)) = some place ∧
        m.location = some ⟨Path.normalise path, .counted 1⟩ ∧
        (m.location = some ⟨Path.normalise path, .counted (lineAt text (front.length + 1))⟩ ↔
          '\n' ∉ text.toList.take (front.length + 1)) := by
  refine ⟨fun place hplace request hrequest => ?_, fun source m hnew hm => ?_⟩
  · obtain ⟨front, hfront⟩ := exists_front_of_visit hplace
    have hposition := position_of_requestAt? hrequest
    exact ⟨hposition, front, hfront, by rw [hposition, lineAt_zero_eq_iff]⟩
  · have hscan' := (scanFile_eq tree catalog (path, context)).symm.trans hscan
    rw [SourceText.read, htext] at hscan'
    obtain rfl := Except.ok.inj hscan'
    rw [message?_foldl_ask_of_none hnew, SourceText.asks, requests_eq, find?_map, find?_filterMap] at hm
    simp only [Option.map_eq_some_iff, Option.bind_eq_some_iff] at hm
    obtain ⟨_, ⟨request, ⟨place, hfind, hrequest⟩, rfl⟩, rfl⟩ := hm
    obtain ⟨front, hfront⟩ := exists_front_of_visit (mem_of_find?_eq_some hfind)
    have hposition := position_of_requestAt? hrequest
    refine ⟨place, front, hfront, ?_, ?_, ?_⟩
    · simpa [Ask.IsFor, Function.comp_def] using hfind
    · simp [Ask.message, hposition, lineAt]
    · simp [Ask.message, hposition, lineAt_zero_eq_iff]

def secondLine : FileTree := .dir [("a.qml", .file "\n qsTr(\"Hi\")")]

theorem location_at_call_second_line :
    ∃ m, (Catalog.addText {} "a" "a.qml" "\n qsTr(\"Hi\")").message? "a" "Hi" = some m ∧
      m.location = some ⟨Path.normalise "a.qml", .counted 1⟩ := by
  have hsome : ((Catalog.addText {} "a" "a.qml" "\n qsTr(\"Hi\")").message? "a" "Hi").isSome = true := by decide +kernel
  obtain ⟨m, hm⟩ := Option.isSome_iff_exists.1 hsome
  obtain ⟨-, hnew⟩ := @location_at_call_iff secondLine {} _ "a.qml" "a" _ rfl rfl
  obtain ⟨-, -, -, -, hlocation, -⟩ := hnew "Hi" m rfl hm
  exact ⟨m, hm, hlocation⟩

/-- The call starts at the third character. -/
theorem location_misses_call :
    ((Catalog.scanFile secondLine {} "a.qml" "a").toOption.bind fun catalog =>
      (catalog.message? "a" "Hi").bind Message.location) = some ⟨"a.qml", .counted 1⟩ ∧
    lineAt "\n qsTr(\"Hi\")" 2 = 2 := by
  decide +kernel

end QmlScript.Localization
