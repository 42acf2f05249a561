import QmlScript.Proofs.Building
import QmlScript.Proofs.DottedNames
import QmlScript.Proofs.Numeral
import QmlScript.Proofs.Slots

/-!
# Names of slots

The variable of an object spells its path out: underscores stand before all labels but the last, and a dollar
sign before that one. Two objects of a closure share a slot exactly if their paths are spelled alike.
-/

namespace QmlScript.Registry

open List Package Registry.Script Component

variable {path : Path} {index : Nat} {c : Component} {label : String} {member : String × Nat}

/-! ## Paths spelled out -/

theorem escape_dollar : escape "$" = "_" := by
  apply String.toList_inj.mp
  rw [toList_escape]
  decide

def spelling : Path → String
  | [] => ""
  | [label] => "$" ++ label
  | label :: next :: path => "_" ++ label ++ spelling (next :: path)

theorem spelling_cons_cons (label next : String) (path : Path) :
    spelling (label :: next :: path) = "_" ++ label ++ spelling (next :: path) := by
  rw [spelling]

def Escaped (path : Path) : Prop := path ≠ [] ∧ ∀ label ∈ path, escape label = label

theorem pathVariable_eq (h : Escaped path) (parent : String) :
    pathVariable parent path = escape parent ++ spelling path := by
  obtain ⟨hne, hlabels⟩ := h
  induction path generalizing parent with
  | nil => exact absurd rfl hne
  | cons label path ih =>
    have hlabel := hlabels label mem_cons_self
    cases path with
    | nil => simp [pathVariable, spelling, String.append_assoc]
    | cons next path =>
      have hrest := ih (escape parent ++ "$" ++ label) (cons_ne_nil next path)
        fun l hl => hlabels l (mem_cons_of_mem label hl)
      rw [escape_append, escape_append, escape_escape, escape_dollar, hlabel] at hrest
      have hstep : pathVariable parent (label :: next :: path) =
          pathVariable (escape parent ++ "$" ++ label) (next :: path) := by
        simp only [pathVariable, foldl_cons]
      rw [hstep, hrest, spelling_cons_cons]
      simp only [String.append_assoc]

/-! ## The labels of a component -/

/-- The label of a value of a property, with the position of the part. -/
def valueMembers (target : String) : Assigned → List (String × Nat)
  | .part index => if target = "id" ∨ target = "delegate" then [] else [(escape target, index)]
  | _ => []

def childMembers (c : Component) : List (String × Nat) :=
  c.children.zipIdx.map fun (index, position) => ("child" ++ toString position, index)

/-- The parts of a component that live in its closure, with their labels. -/
def members (c : Component) : List (String × Nat) :=
  childMembers c ++ c.assignments.entries.flatMap fun (target, value) => valueMembers target value

theorem objects_eq_members (c : Component) :
    objects c = (members c).flatMap fun member => labelled (objectsOfParts c.parts) member.1 member.2 := by
  have hvalue : ∀ entry : String × Assigned, valuePaths (objectsOfParts c.parts) entry.1 entry.2 =
      (valueMembers entry.1 entry.2).flatMap fun member =>
        labelled (objectsOfParts c.parts) member.1 member.2 := by
    rintro ⟨target, value⟩
    cases value with
    | part index =>
      by_cases h : target = "id" ∨ target = "delegate" <;> simp [valuePaths, valueMembers, h]
    | _ => rfl
  rw [objects_eq, pathsWith, members, childMembers, flatMap_append, flatMap_map, flatMap_assoc, childPaths]
  congr 1
  exact flatMap_congr fun entry _ => hvalue entry

theorem objectsOfParts_eq_map (parts : List Component) : objectsOfParts parts = parts.map objects := by
  induction parts with
  | nil => simp only [objectsOfParts, map_nil]
  | cons part parts ih => simp only [objectsOfParts, map_cons, ih]

theorem mem_labelled {parts : List Component} :
    path ∈ labelled (objectsOfParts parts) label index ↔
      ∃ part, parts[index]? = some part ∧ (path = [label] ∨ ∃ rest ∈ objects part, path = label :: rest) := by
  rw [labelled, objectsOfParts_eq_map, getElem?_map]
  cases parts[index]? with
  | none => simp
  | some part => simp [eq_comm]

theorem mem_childMembers (h : member ∈ childMembers c) :
    ∃ n < c.children.length, member.1 = "child" ++ toString n := by
  obtain ⟨⟨index, position⟩, hmem, rfl⟩ := mem_map.mp h
  have hlt := snd_lt_of_mem_zipIdx hmem
  exact ⟨position, by omega, rfl⟩

theorem mem_valueMembers
    (h : member ∈ c.assignments.entries.flatMap fun entry => valueMembers entry.1 entry.2) :
    ∃ target, (target, .part member.2) ∈ c.assignments.entries ∧ member.1 = escape target := by
  obtain ⟨⟨target, value⟩, hmem, hvalue⟩ := mem_flatMap.mp h
  cases value with
  | part index =>
    simp only [valueMembers] at hvalue
    split at hvalue
    · simp at hvalue
    · obtain rfl := mem_singleton.mp hvalue
      exact ⟨target, hmem, rfl⟩
  | _ => simp [valueMembers] at hvalue

theorem mem_members (h : (label, index) ∈ members c) :
    (∃ n < c.children.length, label = "child" ++ toString n) ∨
      ∃ target, (target, .part index) ∈ c.assignments.entries ∧ label = escape target := by
  rcases mem_append.mp h with h | h
  · exact .inl (mem_childMembers h)
  · exact .inr (mem_valueMembers h)

theorem isWordChar_of_isDigit {x : Char} (h : x.isDigit = true) : Text.isWordChar x = true := by
  have hcode := (Number.isDigit_iff_toNat x).mp h
  rw [Text.isWordChar, if_pos (by omega), Char.isAlphanum, h]
  simp

theorem escape_childLabel (n : Nat) : escape ("child" ++ toString n) = "child" ++ toString n := by
  rw [escape_append]
  have hdigits : escape (toString n) = toString n := by
    refine escape_of_word fun x hx => ?_
    have hdigit : x.isDigit = true := by
      rw [Nat.toString_eq_ofList_toDigits, String.toList_ofList] at hx
      exact Number.isDigit_of_mem_digits n x hx
    exact isWordChar_of_isDigit hdigit
  rw [hdigits]
  rfl

/-- What passes from labels of a component to parts holds along all paths. -/
theorem forall_objects {P : Component → Prop} {Q : String → Prop} (hparts : ∀ {c}, P c → ∀ part ∈ c.parts, P part)
    (hlabel : ∀ {c}, P c → ∀ label index, (label, index) ∈ members c → Q label) (h : P c) :
    ∀ path ∈ objects c, path ≠ [] ∧ ∀ label ∈ path, Q label := by
  induction c using Component.inductParts with
  | _ c ih =>
    intro path hpath
    rw [objects_eq_members, mem_flatMap] at hpath
    obtain ⟨⟨label, index⟩, hmember, hpath⟩ := hpath
    obtain ⟨part, hpart, hcases⟩ := mem_labelled.mp hpath
    have hfirst := hlabel h label index hmember
    rcases hcases with rfl | ⟨rest, hrest, rfl⟩
    · exact ⟨by simp, by simpa using hfirst⟩
    · have hmem := mem_of_getElem? hpart
      exact ⟨by simp, forall_mem_cons.mpr ⟨hfirst, (ih part hmem (hparts h part hmem) rest hrest).2⟩⟩

theorem escaped_of_mem_objects (c : Component) : ∀ path ∈ objects c, Escaped path := by
  refine forall_objects (P := fun _ => True) (fun _ _ _ => trivial) (fun _ label index hmember => ?_) trivial
  rcases mem_members hmember with ⟨n, -, rfl⟩ | ⟨target, -, rfl⟩
  · exact escape_childLabel n
  · exact escape_escape target

/-- Two objects share a slot exactly if their paths are spelled alike. -/
theorem nodup_slotsOf_iff (c : Component) (parent closure : String) :
    (slotsOf parent closure (objects c)).Nodup ↔ ((objects c).map spelling).Nodup := by
  have hslots : slotsOf parent closure (objects c) = ((objects c).map spelling).map fun name =>
      (closure, escape parent ++ name) := by
    rw [slotsOf, map_map]
    refine map_congr_left fun path hpath => ?_
    rw [pathVariable_eq (escaped_of_mem_objects c path hpath), Function.comp]
  have hinj : Function.Injective fun name => (closure, escape parent ++ name) := by
    intro name name' h
    exact (String.append_right_inj _).mp (Prod.mk.inj h).2
  rw [hslots]
  exact nodup_map_iff hinj

/-! ## Names without underscores -/

def isSeparator (x : Char) : Bool := x = '_' || x = '$'

theorem toList_spelling (label : String) (path : Path) :
    ∃ x, isSeparator x = true ∧ (spelling (label :: path)).toList = x :: (label.toList ++ (spelling path).toList) := by
  cases path with
  | nil => exact ⟨'$', rfl, by simp [spelling]⟩
  | cons next path => exact ⟨'_', rfl, by simp [spelling_cons_cons]⟩

theorem splitOnP_spelling {front : List Char} (hfront : ∀ x ∈ front, isSeparator x = false)
    (hfree : ∀ label ∈ path, ∀ x ∈ label.toList, isSeparator x = false) :
    (front ++ (spelling path).toList).splitOnP isSeparator = front :: path.map String.toList := by
  induction path generalizing front with
  | nil => simpa [spelling] using splitOnP_eq_singleton hfront
  | cons label path ih =>
    rw [forall_mem_cons] at hfree
    obtain ⟨x, hsep, hx⟩ := toList_spelling label path
    rw [hx, splitOnP_append_cons_of_forall_mem hfront x hsep, ih hfree.1 hfree.2, map_cons]

/-- A name without dots and underscores, and of none of so many children. -/
def isTidyTarget (children : Nat) (target : String) : Bool :=
  (target.toList.all fun x => Text.isWordChar x && x ≠ '_') &&
    (List.range children).all fun n => target ≠ "child" ++ toString n

def isTidyPath (name : String) : Bool :=
  name.toList.all fun x => (Text.isWordChar x || x = '.') && x ≠ '_'

mutual

/-- Whether properties that hold components or animations have tidy names, in all parts. -/
def isTidy : Component → Bool
  | c@{ parts, .. } =>
    (c.assignments.entries.all fun (target, value) =>
      match value with
      | .part _ => isTidyTarget c.children.length target
      | _ => true) &&
    c.animations.keys.all isTidyPath && areTidy parts

def areTidy : List Component → Bool
  | [] => true
  | part :: parts => isTidy part && areTidy parts

end

def Tidy (c : Component) : Prop := isTidy c = true

theorem areTidy_eq_all (parts : List Component) : areTidy parts = parts.all isTidy := by
  induction parts with
  | nil => simp only [areTidy, all_nil]
  | cons part parts ih => simp only [areTidy, all_cons, ih]

theorem tidy_iff (c : Component) : Tidy c ↔
    (∀ target index, (target, .part index) ∈ c.assignments.entries → isTidyTarget c.children.length target = true) ∧
    (∀ name ∈ c.animations.keys, isTidyPath name = true) ∧ ∀ part ∈ c.parts, Tidy part := by
  have hvalue : ∀ (children : Nat) (entries : List (String × Assigned)), (entries.all fun (target, value) =>
        match value with
        | .part _ => isTidyTarget children target
        | _ => true) = true ↔
      ∀ target index, (target, .part index) ∈ entries → isTidyTarget children target = true := by
    intro children entries
    rw [all_eq_true]
    constructor
    · exact fun h target index hmem => h (target, .part index) hmem
    · rintro h ⟨target, value⟩ hmem
      cases value with
      | part index => exact h target index hmem
      | _ => rfl
  cases c
  simp only [Tidy, isTidy, Bool.and_eq_true, hvalue, areTidy_eq_all, all_eq_true, and_assoc]

theorem Tidy.values (h : Tidy c) : ∀ target index, (target, .part index) ∈ c.assignments.entries →
      (∀ x ∈ target.toList, Text.isWordChar x = true ∧ x ≠ '_') ∧
        ∀ n < c.children.length, target ≠ "child" ++ toString n := by
  intro target index hmem
  have htarget := ((tidy_iff c).mp h).1 target index hmem
  simpa [isTidyTarget] using htarget

theorem Tidy.animations (h : Tidy c) : ∀ name ∈ c.animations.keys,
    ∀ x ∈ name.toList, (Text.isWordChar x = true ∨ x = '.') ∧ x ≠ '_' := by
  intro name hname
  have hpath := ((tidy_iff c).mp h).2.1 name hname
  simpa [isTidyPath] using hpath

theorem Tidy.parts (h : Tidy c) : ∀ part ∈ c.parts, Tidy part := ((tidy_iff c).mp h).2.2

theorem Tidy.escape_target (h : Tidy c) {target : String}
    (ht : (target, .part index) ∈ c.assignments.entries) : escape target = target :=
  escape_of_word fun x hx => ((h.values target index ht).1 x hx).1

theorem not_separator_of_word {x : Char} (h : Text.isWordChar x = true) (hne : x ≠ '_') : isSeparator x = false := by
  have hdollar : x ≠ '$' := by
    rintro rfl
    exact absurd h (by decide)
  simp [isSeparator, hne, hdollar]

theorem not_separator_childLabel (n : Nat) : ∀ x ∈ ("child" ++ toString n).toList, isSeparator x = false := by
  intro x hx
  rw [String.toList_append] at hx
  rcases mem_append.mp hx with hx | hx
  · have hletters : "child".toList.all (fun x => !isSeparator x) = true := rfl
    simpa using all_eq_true.mp hletters x hx
  · rw [Nat.toString_eq_ofList_toDigits, String.toList_ofList] at hx
    have hcode := (Number.isDigit_iff_toNat x).mp (Number.isDigit_of_mem_digits n x hx)
    refine not_separator_of_word (isWordChar_of_isDigit (Number.isDigit_of_mem_digits n x hx)) ?_
    rintro rfl
    exact absurd hcode.2 (by decide)

theorem Tidy.not_separator (h : Tidy c) :
    ∀ path ∈ objects c, ∀ label ∈ path, ∀ x ∈ label.toList, isSeparator x = false := by
  refine fun path hpath => (forall_objects Tidy.parts (fun {c} h label index hmember => ?_) h path hpath).2
  rcases mem_members hmember with ⟨n, -, rfl⟩ | ⟨target, htarget, rfl⟩
  · exact not_separator_childLabel n
  · intro x hx
    rw [h.escape_target htarget] at hx
    obtain ⟨hword, hne⟩ := (h.values target index htarget).1 x hx
    exact not_separator_of_word hword hne

theorem nodup_labels (hk : IsBuilt c) (ht : Tidy c) : ((members c).map Prod.fst).Nodup := by
  have hchildren : ((childMembers c).map Prod.fst).Nodup := by
    have hlabels : (childMembers c).map Prod.fst =
        (c.children.zipIdx.map Prod.snd).map fun n => "child" ++ toString n := by
      rw [childMembers, map_map, map_map]
      rfl
    have hinj : Function.Injective fun n : Nat => "child" ++ toString n := by
      intro n m h
      have hdigits := congrArg String.toList ((String.append_right_inj _).mp h)
      simp only [Nat.toString_eq_ofList_toDigits, String.toList_ofList] at hdigits
      rw [← Nat.ofDigitChars_ten_toDigits (n := n), hdigits, Nat.ofDigitChars_ten_toDigits]
    rw [hlabels]
    refine List.Nodup.map hinj ?_
    rw [zipIdx_map_snd]
    exact nodup_range'
  have hvalues : ((c.assignments.entries.flatMap fun entry => valueMembers entry.1 entry.2).map
      Prod.fst).Sublist (c.assignments.entries.map Prod.fst) := by
    have htargets : ∀ target index, (target, .part index) ∈ c.assignments.entries →
        escape target = target := fun target index hmem => ht.escape_target hmem
    revert htargets
    induction c.assignments.entries with
    | nil => simp
    | cons entry entries ih =>
      intro htargets
      obtain ⟨target, value⟩ := entry
      have hrest := ih fun target index hmem => htargets target index (mem_cons_of_mem _ hmem)
      rw [flatMap_cons, map_append, map_cons]
      cases value with
      | part index =>
        simp only [valueMembers]
        split
        · exact hrest.cons _
        · rw [htargets target index mem_cons_self]
          exact hrest.cons_cons _
      | _ => exact hrest.cons _
  rw [members, map_append]
  refine nodup_append.mpr ⟨hchildren, hvalues.nodup hk.complete.assignments, ?_⟩
  -- a property that is given a component is not called like a child
  rintro label hlabels label' hvalue rfl
  obtain ⟨child, hchild, rfl⟩ := mem_map.mp hlabels
  obtain ⟨value, hvalue, heq⟩ := mem_map.mp hvalue
  obtain ⟨n, hn, hlabel⟩ := mem_childMembers hchild
  obtain ⟨target, htarget, hlabel'⟩ := mem_valueMembers hvalue
  rw [ht.escape_target htarget] at hlabel'
  exact (ht.values target value.2 htarget).2 n hn (hlabel'.symm.trans (heq.trans hlabel))

theorem nodup_objects (hk : IsBuilt c) (ht : Tidy c) : (objects c).Nodup := by
  induction c using Component.inductParts
  rename_i c ih
  rw [objects_eq_members, nodup_flatMap]
  constructor
  · rintro ⟨label, index⟩ -
    rw [labelled, objectsOfParts_eq_map, getElem?_map]
    cases hpart : c.parts[index]? with
    | none => exact nodup_nil
    | some part =>
      have hmem := mem_of_getElem? hpart
      have hinner : (objects part).Nodup := ih part hmem (hk.complete.parts part hmem) (ht.parts part hmem)
      refine nodup_cons.mpr ⟨?_, hinner.map (cons_injective)⟩
      -- what is inside the part has a longer path
      intro hlabel
      obtain ⟨rest, hrest, heq⟩ := mem_map.mp hlabel
      exact (escaped_of_mem_objects part rest hrest).1 (List.cons.inj heq).2
  · have hlabels := pairwise_map.mp (nodup_labels hk ht)
    refine hlabels.imp fun {member member'} hne path hpath hpath' => ?_
    have hhead : ∀ {member : String × Nat}, path ∈ labelled (objectsOfParts c.parts) member.1 member.2 →
        path.head? = some member.1 := by
      intro member hpath
      obtain ⟨part, -, rfl | ⟨rest, -, rfl⟩⟩ := mem_labelled.mp hpath
      · rfl
      · rfl
    exact hne (Option.some.inj ((hhead hpath).symm.trans (hhead hpath')))

theorem nodup_spelling (hk : IsBuilt c) (ht : Tidy c) : ((objects c).map spelling).Nodup := by
  refine (nodup_objects hk ht).map_on fun path hpath path' hpath' h => ?_
  have hlabels : [] :: path.map String.toList = [] :: path'.map String.toList := by
    rw [← splitOnP_spelling (by simp) (ht.not_separator path hpath), h,
      splitOnP_spelling (by simp) (ht.not_separator path' hpath')]
  exact (List.map_inj_right fun _ _ => String.toList_inj.mp).mp (List.cons.inj hlabels).2

def Piece.blockVariable? : Piece → Option String
  | .block inside => (Script.stored inside).head?.map Prod.snd
  | _ => none

/-- The variables of blocks that belong to no object inside a script. -/
def Script.blockVariables (s : Script) : List String := s.filterMap Piece.blockVariable?

theorem Script.blockVariables_append (s t : Script) : blockVariables (s ++ t) = blockVariables s ++ blockVariables t :=
  filterMap_append

theorem Script.blockVariables_lines (lines : List Script) :
    blockVariables (Script.lines lines) = lines.flatMap blockVariables := by
  induction lines with
  | nil => rfl
  | cons s lines ih =>
    cases lines with
    | nil => simp [Script.lines]
    | cons t lines =>
      have hbreak : ∀ s : Script, blockVariables (.text "\n" :: s) = blockVariables s :=
        fun _ => rfl
      rw [lines_cons_cons, blockVariables_append, hbreak, ih, flatMap_cons (x := s)]

theorem blockVariables_texts (lines : List String) :
    (lines.map fun line => [Piece.text line]).flatMap blockVariables = [] := by
  simp [flatMap_map, blockVariables, Piece.blockVariable?]

section Blocks

variable (parts : List PartHalves) (c : Component) (parent closure : String) (indent : Nat)

theorem settlePiece_blockVariables (indent : Nat) (var closure : String) (part : PartHalves) :
    Yields (settlePiece indent var closure part) fun piece => blockVariables [piece] = [] := .after fun _ => .pure rfl

theorem settleScripts_blockVariables (target : String) (value : Assigned) :
    Yields (settleScripts c parts parent closure indent target value) fun lines =>
      lines.flatMap blockVariables = [] := by
  unfold settleScripts
  cases value with
  | part index =>
    refine .ite (.pure rfl) (.ite (.pure rfl) (.after fun part => ?_))
    exact (settlePiece_blockVariables _ _ _ part).bind fun piece hpiece => .pure (by simpa using hpiece)
  | _ => exact .after fun lines => .pure (blockVariables_texts lines)

theorem animationScripts_blockVariable (name : String) (index : Nat) :
    Yields (animationScripts c parts parent name index) fun lines =>
      Script.blockVariables [.block (Script.lines (lines.1 :: lines.2))] = [behaviorVariable parent name] := by
  unfold animationScripts createPiece settlePiece
  refine .after fun part => ?_
  dsimp only
  refine .after fun type => ?_
  rw [bind_assoc]
  refine .after fun inside => ?_
  rw [pure_bind, bind_assoc]
  refine .after fun inside' => ?_
  rw [pure_bind]
  -- the first object that the block stores is the animation itself
  have hblock : ∀ first second last : String, Script.blockVariables [.block (Script.lines
      ([.text first] :: [[.text second],
        [.create 1 (behaviorVariable parent name) (behaviorVariable parent name ++ "$c") part.component.base inside],
        [.settle 1 (behaviorVariable parent name) (behaviorVariable parent name ++ "$c") part.component.base inside'],
        [.text last]]))] = [behaviorVariable parent name] := by
    intro first second last
    simp [Script.blockVariables, Piece.blockVariable?, Script.lines, Script.stored, Piece.stored]
  exact .ite (.after fun object => .pure (hblock _ _ _)) (.after fun object => .pure (hblock _ _ _))

theorem flatMap_blockVariables {α : Type} {as : List α} {lines : List Script} {f : α → List String}
    (h : List.Forall₂ (fun a line => blockVariables line = f a) as lines) :
    lines.flatMap blockVariables = as.flatMap f := by
  induction h with
  | nil => rfl
  | cons hhead _ ih => rw [flatMap_cons, flatMap_cons, hhead, ih]

theorem animationScript_blockVariables :
    Yields (animationScript c parts parent) fun s =>
      blockVariables s = c.animations.keys.map (behaviorVariable parent) := by
  refine (Yields.mapM fun entry _ =>
    animationScripts_blockVariable parts c parent entry.1 entry.2).bind fun blocks hblocks => .pure ?_
  rw [blockVariables_lines, flatMap_blockVariables (List.forall₂_map_right_iff.mpr hblocks)]
  rw [Table.keys, map_map, map_eq_flatMap]
  rfl

theorem setupScript_blockVariables :
    Yields (setupScript c parts parent closure indent) fun s =>
      blockVariables s = c.animations.keys.map (behaviorVariable parent) := by
  refine (Yields.mapM fun entry _ => settleScripts_blockVariables parts c parent closure indent entry.1
    entry.2).bind fun values hvalues => .after fun attached => ?_
  refine (Yields.mapM (P := fun _ piece => blockVariables [piece] = []) fun child _ =>
    .after fun part => settlePiece_blockVariables _ _ _ part).bind fun children hchildren => ?_
  dsimp only
  refine (animationScript_blockVariables parts c parent).bind fun animated hanimated => .pure ?_
  have hvalues' : values.flatten.flatMap blockVariables = [] := by
    generalize c.assignments.entries = entries at hvalues
    induction hvalues with
    | nil => rfl
    | cons hhead _ ih => rw [flatten_cons, flatMap_append, hhead, ih, append_nil]
  have hchildren' : (children.map fun piece => [piece]).flatMap blockVariables = [] := by
    rw [flatMap_blockVariables (List.forall₂_map_right_iff.mpr hchildren)]
    simp
  rw [blockVariables_lines]
  simp only [flatMap_append, hvalues', hchildren', blockVariables_texts, nil_append]
  rw [flatMap_cons, flatMap_singleton, hanimated]
  exact append_nil _

end Blocks

theorem nodup_behaviorVariables_iff (parent : String) (names : List String) :
    (names.map (behaviorVariable parent)).Nodup ↔ (names.map escape).Nodup := by
  have hinj : Function.Injective fun name =>
      "behavior_" ++ escape parent ++ "_on_" ++ name := by
    intro name name' h
    exact (String.append_right_inj _).mp h
  have hnames : names.map (behaviorVariable parent) = (names.map escape).map fun name =>
      "behavior_" ++ escape parent ++ "_on_" ++ name := by
    rw [map_map]
    rfl
  rw [hnames]
  exact nodup_map_iff hinj

theorem escape_inj {name name' : String} (h : ∀ x ∈ name.toList, (Text.isWordChar x = true ∨ x = '.') ∧ x ≠ '_')
    (h' : ∀ x ∈ name'.toList, (Text.isWordChar x = true ∨ x = '.') ∧ x ≠ '_')
    (heq : escape name = escape name') : name = name' := by
  -- in such a name only a dot turns into an underscore
  have hback : ∀ name : String, (∀ x ∈ name.toList, (Text.isWordChar x = true ∨ x = '.') ∧ x ≠ '_') →
      (escape name).toList.map (fun x => if x = '_' then '.' else x) = name.toList := by
    intro name h
    rw [toList_escape, map_map]
    refine (map_congr_left fun x hx => ?_).trans (map_id _)
    obtain ⟨hword | rfl, hne⟩ := h x hx
    · simp [escapeChar, hword, hne]
    · decide
  rw [← String.toList_inj, ← hback name h, heq, hback name' h']

theorem nodup_escaped_animations (hk : IsBuilt c) (ht : Tidy c) : (c.animations.keys.map escape).Nodup :=
  hk.complete.animations.map_on fun name hname name' hname' h =>
    escape_inj (ht.animations name hname) (ht.animations name' hname') h

/-! ## Slots of components that were built -/

theorem members_bare (c : Component) : members c.bare = members c := by
  rw [bare_eq]
  rfl

theorem objects_bare (c : Component) : objects c.bare = objects c := by
  induction c using Component.inductParts with
  | _ c ih =>
    have hparts : objectsOfParts c.bare.parts = objectsOfParts c.parts := by
      rw [bare_eq]
      simp only [bareParts_eq_map, objectsOfParts_eq_map, map_map]
      exact map_congr_left ih
    rw [objects_eq_members, objects_eq_members c, members_bare, hparts]

theorem Tidy.at? {d : Component} (h : Tidy c) {path : List Nat} (hd : c.at? path = some d) : Tidy d :=
  of_at? Tidy.parts h hd

section Prepared

variable {c d : Component} {r r' : Registry} (h : prepareComponent c r = ((d, none), r'))

include h

theorem bare_of_prepared : d.bare = c.bare := by
  have hbare := bare_prepareComponent c r
  rwa [h] at hbare

theorem objects_of_prepared : objects d = objects c := by
  rw [← objects_bare, ← objects_bare c, bare_of_prepared h]

/-- Parts animate the same properties prepared as they did built. -/
theorem exists_at?_of_prepared {path : List Nat} {e : Component} (he : d.at? path = some e) :
    ∃ e', c.at? path = some e' ∧ e.animations = e'.animations := by
  have hbare := at?_bare path d
  rw [bare_of_prepared h, at?_bare, he] at hbare
  obtain ⟨e', he', heq⟩ := Option.map_eq_some_iff.mp hbare
  have hanimations := congrArg Component.animations heq
  rw [bare_eq, bare_eq] at hanimations
  exact ⟨e', he', hanimations.symm⟩

end Prepared

variable {parent closure : String} {indent : Nat} {s s' : Registry}

theorem exists_stored_perm {created : String}
    (h : run ((emitter c).creators parent closure indent) s = (.ok created, s')) :
    ∃ p : Script, run ((halves c).creators parent closure indent) s = (.ok p, s') ∧
      render p = created ∧ (stored p).Perm (slotsOf parent closure (objects c)) := by
  obtain ⟨p, hp, hrender⟩ := ((halves_of_emitter c).1 parent closure indent).run_ok h
  exact ⟨p, hp, hrender, ((halves_serve c).1 parent closure indent s p s' hp).stored⟩

theorem exists_blockVariables {settled : String}
    (h : run ((emitter c).setup parent closure indent) s = (.ok settled, s')) :
    ∃ q : Script, run ((halves c).setup parent closure indent) s = (.ok q, s') ∧
      render q = settled ∧
      blockVariables q = c.animations.keys.map (behaviorVariable parent) := by
  obtain ⟨q, hq, hrender⟩ := ((halves_of_emitter c).2 parent closure indent).run_ok h
  refine ⟨q, hq, hrender, ?_⟩
  rw [halves_eq] at hq
  exact setupScript_blockVariables _ c parent closure indent s q s' hq

/-- The objects of a component that was built and prepared share a slot exactly if their paths are spelled
alike, and the animations of one object share a variable exactly if the escaped names of the animated
properties are the same. Neither happens in a tidy component. -/
theorem slots_nodup_of_build {name : String} {prototype : Bool} {tree : Tree} {c d : Component}
    {r r' : Registry} (hbuild : Component.build name prototype tree = .ok c)
    (hprepare : prepareComponent c r = ((d, none), r')) :
    (∀ parent closure indent s s' created,
      run ((emitter d).creators parent closure indent) s = (.ok created, s') →
      ∃ p : Script, run ((halves d).creators parent closure indent) s = (.ok p, s') ∧
        render p = created ∧ (stored p).Perm (slotsOf parent closure (objects c)) ∧
        ((stored p).Nodup ↔ ((objects c).map spelling).Nodup) ∧
        (Tidy c → (stored p).Nodup)) ∧
    ∀ path e parent closure indent s s' settled, d.at? path = some e →
      run ((emitter e).setup parent closure indent) s = (.ok settled, s') →
      ∃ q : Script, run ((halves e).setup parent closure indent) s = (.ok q, s') ∧
        render q = settled ∧
        blockVariables q = e.animations.keys.map (behaviorVariable parent) ∧
        ((blockVariables q).Nodup ↔ (e.animations.keys.map escape).Nodup) ∧
        (Tidy c → (blockVariables q).Nodup) := by
  have hbuilt := isBuilt_of_build hbuild
  constructor
  · intro parent closure indent s s' created hcreated
    obtain ⟨p, hp, hrender, hstored⟩ := exists_stored_perm hcreated
    rw [objects_of_prepared hprepare] at hstored
    have hiff := hstored.nodup_iff.trans (nodup_slotsOf_iff c parent closure)
    exact ⟨p, hp, hrender, hstored, hiff, fun htidy => hiff.mpr (nodup_spelling hbuilt htidy)⟩
  · intro path e parent closure indent s s' settled he hsettled
    obtain ⟨q, hq, hrender, hblocks⟩ := exists_blockVariables hsettled
    have hiff : (blockVariables q).Nodup ↔ (e.animations.keys.map escape).Nodup := by
      rw [hblocks]
      exact nodup_behaviorVariables_iff parent _
    refine ⟨q, hq, hrender, hblocks, hiff, fun htidy => hiff.mpr ?_⟩
    obtain ⟨e', he', hanimations⟩ := exists_at?_of_prepared hprepare he
    rw [hanimations]
    exact nodup_escaped_animations (hbuilt.at? he') (htidy.at? he')

def emptyPart : Tree := .component none "CoreObject" []

/-- A type with a child and a header, each with a child, and two animations. -/
def card : Tree :=
  .component none "CoreObject" [
    .property none "var" [("header", .absent), ("width", .absent), ("height", .absent)],
    .component none "CoreObject" [emptyPart],
    .assignment none "header" (.component none "CoreObject" [emptyPart]),
    .behavior none ["width", "height"] emptyPart]

/-- A registry without components. -/
def blank : Registry := { ns := "qml", buildId := "1" }

/-- Both halves are written, and the component passes a check. -/
def isWritten (check : Component → Bool) (tree : Tree) : Bool :=
  match Component.build "ui.Card" true tree with
  | .ok c =>
    match prepareComponent c blank with
    | ((d, none), _) => check c && (run ((emitter d).creators "$this" "$c" 2) blank).1.isOk &&
        (run ((emitter d).setup "$this" "$c" 3) blank).1.isOk
    | _ => false
  | .error _ => false

theorem exists_of_isWritten {check : Component → Bool} {tree : Tree} (h : isWritten check tree = true) :
    ∃ c d r, Component.build "ui.Card" true tree = .ok c ∧ prepareComponent c blank = ((d, none), r) ∧
      check c = true ∧
      (∃ created s, run ((emitter d).creators "$this" "$c" 2) blank = (.ok created, s)) ∧
      ∃ settled s, run ((emitter d).setup "$this" "$c" 3) blank = (.ok settled, s) := by
  unfold isWritten at h
  split at h
  · rename_i c hc
    split at h
    · rename_i d r hd
      simp only [Bool.and_eq_true] at h
      exact ⟨c, d, r, hc, hd, h.1.1, exists_run_ok h.1.2, exists_run_ok h.2⟩
    · simp at h
  · simp at h

set_option maxRecDepth 100000

theorem card_slots_nodup :
    ∃ c d r created s settled s', Component.build "ui.Card" true card = .ok c ∧
      prepareComponent c blank = ((d, none), r) ∧ Tidy c ∧
      run ((emitter d).creators "$this" "$c" 2) blank = (.ok created, s) ∧
      run ((emitter d).setup "$this" "$c" 3) blank = (.ok settled, s') ∧
      ∃ p q : Script, render p = created ∧ (stored p).Nodup ∧
        render q = settled ∧ (blockVariables q).Nodup := by
  obtain ⟨c, d, r, hc, hd, htidy, ⟨created, s, hcreated⟩, settled, s', hsettled⟩ :=
    exists_of_isWritten (by decide +kernel : isWritten isTidy card = true)
  obtain ⟨hslots, hblocks⟩ := slots_nodup_of_build hc hd
  obtain ⟨p, -, hp, -, -, hstored⟩ := hslots _ _ _ _ _ _ hcreated
  obtain ⟨q, -, hq, -, -, hvariables⟩ := hblocks [] d _ _ _ _ _ _ rfl hsettled
  exact ⟨c, d, r, created, s, settled, s', hc, hd, htidy, hcreated, hsettled, p, q, hp, hstored htidy, hq,
    hvariables htidy⟩

/-- A property of an object and a property whose name has an underscore. -/
def dottedAndPlain : Tree :=
  .component none "CoreObject" [
    .property none "var" [("a_b", .absent), ("a", .absent)],
    .assignment none "a_b" emptyPart, .assignment none "a.b" emptyPart]

def calledLikeChild : Tree :=
  .component none "CoreObject" [.property none "var" [("child0", emptyPart)], emptyPart]

def animatedTwice : Tree :=
  .component none "CoreObject" [
    .property none "var" [("a_b", .absent), ("a", .absent)],
    .behavior none ["a.b"] emptyPart, .behavior none ["a_b"] emptyPart]

/-- Two parts of one component may share a slot, and two of its animations a variable. -/
theorem slots_collide :
    (∀ tree ∈ [dottedAndPlain, calledLikeChild], ∃ c d r created s, ∃ p : Script,
      Component.build "ui.Card" true tree = .ok c ∧ prepareComponent c blank = ((d, none), r) ∧
      run ((emitter d).creators "$this" "$c" 2) blank = (.ok created, s) ∧
      run ((halves d).creators "$this" "$c" 2) blank = (.ok p, s) ∧ render p = created ∧
      ¬(stored p).Nodup) ∧
    ∃ c d r settled s, ∃ q : Script,
      Component.build "ui.Card" true animatedTwice = .ok c ∧
      prepareComponent c blank = ((d, none), r) ∧
      run ((emitter d).setup "$this" "$c" 3) blank = (.ok settled, s) ∧
      run ((halves d).setup "$this" "$c" 3) blank = (.ok q, s) ∧ render q = settled ∧
      ¬(blockVariables q).Nodup := by
  constructor
  · intro tree htree
    have hcollide : isWritten (fun c => !decide ((objects c).map spelling).Nodup) tree = true := by
      simp only [mem_cons, not_mem_nil, or_false] at htree
      rcases htree with rfl | rfl <;> decide +kernel
    obtain ⟨c, d, r, hc, hd, hpaths, ⟨created, s, hcreated⟩, -⟩ := exists_of_isWritten hcollide
    obtain ⟨p, hp, hrender, hstored⟩ := exists_stored_perm hcreated
    refine ⟨c, d, r, created, s, p, hc, hd, hcreated, hp, hrender, fun hnodup => ?_⟩
    rw [hstored.nodup_iff, nodup_slotsOf_iff, objects_of_prepared hd] at hnodup
    simp [hnodup] at hpaths
  · have hanimated : isWritten (fun c => !decide (c.animations.keys.map escape).Nodup)
        animatedTwice = true := by decide +kernel
    obtain ⟨c, d, r, hc, hd, hnames, -, settled, s, hsettled⟩ := exists_of_isWritten hanimated
    obtain ⟨q, hq, hrender, hblocks⟩ := exists_blockVariables hsettled
    refine ⟨c, d, r, settled, s, q, hc, hd, hsettled, hq, hrender, fun hnodup => ?_⟩
    have hroot : d.at? [] = some d := rfl
    obtain ⟨c', hc', hanimations⟩ := exists_at?_of_prepared hd hroot
    obtain rfl : c = c' := Option.some.inj hc'
    rw [hblocks, nodup_behaviorVariables_iff, hanimations] at hnodup
    simp [hnodup] at hnames

end QmlScript.Registry
