import Mathlib.Data.List.Perm.Basic
import QmlScript.Compile
import QmlScript.Proofs.DottedNames
import QmlScript.Proofs.Fields

/-!
# Variables of manifest properties

A program declares a variable for each property of its merged manifests, key by key, and a reference to a
property is written as a variable from its dots. Where keys are plain words the two names are the same.
-/

namespace QmlScript.Setting

open List

inductive Keyed : Json → Prop where
  | value {v : Json} (h : ∀ fields, v ≠ .obj fields) : Keyed v
  | obj {fields : List (String × Json)} (keys : (fields.map Prod.fst).Nodup)
    (inside : ∀ field ∈ fields, Keyed field.2) : Keyed (.obj fields)

/-- Settings that come from merging others into empty ones. -/
inductive Merged : Json → Prop where
  | empty : Merged (.obj [])
  | merge {target source settings : Json} (h : Merged target) (hmerge : merge target source = .ok settings) :
    Merged settings

variable {v target source settings : Json} {fields : List (String × Json)} {key : String}

theorem Keyed.empty : Keyed (.obj []) := .obj nodup_nil fun _ h => absurd h not_mem_nil

theorem Keyed.of_field? (h : Keyed (.obj fields)) (hv : Json.field? key fields = some v) : Keyed v := by
  cases h with
  | value hne => exact absurd rfl (hne fields)
  | obj _ inside => exact inside _ (Json.mem_of_field? hv)

theorem Keyed.setField (h : Keyed (.obj fields)) (hv : Keyed v) : Keyed (.obj (Json.setField key v fields)) := by
  cases h with
  | value hne => exact absurd rfl (hne fields)
  | obj keys inside =>
    refine .obj (Json.nodup_setField keys) fun field hfield => ?_
    rcases Json.mem_setField hfield with rfl | hfield
    · exact hv
    · exact inside field hfield

theorem mergeFields_cons {bound : Nat} {name : String} {value : Json}
    (h : mergeFields (bound + 1) target ((name, value) :: fields) = .ok settings) :
    ∃ kept inner, target = .obj kept ∧
      mergeFields bound (.obj (Json.setField name inner kept)) fields = .ok settings ∧
      (mergeUpTo bound ((Json.field? name kept).getD (.obj [])) value = .ok inner ∨
        inner = value ∧ ∀ fields, value ≠ .obj fields) := by
  cases target with
  | obj kept =>
    cases value with
    | obj new =>
      rw [mergeFields] at h
      cases hinner : mergeUpTo bound ((Json.field? name kept).getD (.obj [])) (.obj new) with
      | error e => rw [hinner] at h; cases h
      | ok inner => exact ⟨kept, inner, rfl, by rw [hinner] at h; exact h, .inl hinner⟩
    | _ => exact ⟨kept, _, rfl, h, .inr ⟨rfl, by simp⟩⟩
  | _ => cases value <;> cases h

theorem mergeUpTo_succ {bound : Nat} (h : mergeUpTo (bound + 1) target source = .ok settings) :
    settings = target ∨ ∃ fields, mergeFields bound target fields = .ok settings := by
  cases source with
  | obj fields =>
    rw [mergeUpTo] at h
    cases hpairs : ofPairs fields with
    | error e => rw [hpairs] at h; cases h
    | ok pairs =>
      rw [hpairs] at h
      cases pairs with
      | obj fields => exact .inr ⟨fields, h⟩
      | _ => exact .inl (Except.ok.inj h).symm
  | _ => cases h

/-- By induction on the bound, for settings and fields at once. -/
theorem keyed_merge (bound : Nat) :
    (∀ {target source settings : Json}, Keyed target → mergeUpTo bound target source = .ok settings → Keyed settings) ∧
    ∀ {target settings : Json} {fields : List (String × Json)}, Keyed target →
      mergeFields bound target fields = .ok settings → Keyed settings := by
  induction bound with
  | zero =>
    refine ⟨fun h hmerge => Except.ok.inj hmerge ▸ h, fun {_ _ fields} h hmerge => ?_⟩
    cases fields <;> exact Except.ok.inj hmerge ▸ h
  | succ bound ih =>
    obtain ⟨ihSettings, ihFields⟩ := ih
    refine ⟨fun h hmerge => ?_, fun {_ _ fields} h hmerge => ?_⟩
    · rcases mergeUpTo_succ hmerge with rfl | ⟨fields, hfields⟩
      · exact h
      · exact ihFields h hfields
    · cases fields with
      | nil => exact Except.ok.inj hmerge ▸ h
      | cons field fields =>
        obtain ⟨kept, inner, rfl, hrest, hinner⟩ := mergeFields_cons hmerge
        refine ihFields (h.setField ?_) hrest
        rcases hinner with hinner | ⟨rfl, hvalue⟩
        · refine ihSettings ?_ hinner
          cases hold : Json.field? field.1 kept with
          | none => exact .empty
          | some old => exact h.of_field? hold
        · exact .value hvalue

theorem Merged.keyed (h : Merged settings) : Keyed settings := by
  induction h with
  | empty => exact .empty
  | merge _ hmerge ih => exact (keyed_merge _).1 ih hmerge

mutual

/-- The values in settings that are no settings, with the keys to them. -/
def leaves : Json → List (List String × Json)
  | .obj fields => fieldLeaves fields
  | value => [([], value)]

def fieldLeaves : List (String × Json) → List (List String × Json)
  | [] => []
  | (key, value) :: fields =>
    (leaves value).map (fun leaf => (key :: leaf.1, leaf.2)) ++ fieldLeaves fields

end

theorem leaves_value (h : ∀ fields, v ≠ .obj fields) : leaves v = [([], v)] := by
  cases v with
  | obj fields => exact absurd rfl (h fields)
  | _ => rfl

theorem leaves_obj (fields : List (String × Json)) :
    leaves (.obj fields) =
      fields.flatMap fun field => (leaves field.2).map fun leaf => (field.1 :: leaf.1, leaf.2) := by
  rw [leaves]
  induction fields with
  | nil => rfl
  | cons field fields ih => rw [fieldLeaves, ih, flatMap_cons]

theorem Keyed.nodup_ways (h : Keyed v) : ((leaves v).map Prod.fst).Nodup := by
  induction h with
  | value hne => simp [leaves_value hne]
  | @obj fields keys _ ih =>
    rw [leaves_obj, map_flatMap, nodup_flatMap]
    refine ⟨fun field hfield => ?_, (pairwise_map.mp keys).imp fun hkeys way hway hway' => ?_⟩
    · have hways := (ih field hfield).map (cons_injective (a := field.1))
      simpa [map_map, Function.comp_def] using hways
    · simp only [map_map, mem_map, Function.comp_apply] at hway hway'
      obtain ⟨leaf, -, rfl⟩ := hway
      obtain ⟨leaf', -, heq⟩ := hway'
      exact hkeys (List.cons.inj heq).1.symm

end QmlScript.Setting

namespace QmlScript.Compile

open List Package

open Setting (leaves Merged)

variable {name : String} {v : Json} {way : List String} {key : String}

def variableBelow (name : String) (way : List String) : String :=
  way.foldl (fun name key => name ++ "$" ++ escapeId key) name

def declaration (name : String) (leaf : List String × Json) : String :=
  "var " ++ variableBelow name leaf.1 ++ " = " ++ leaf.2.text ++ "\n"

mutual

def orderedLeaves : Json → List (List String × Json)
  | .obj fields => (sortBy (fun a b => textLt a.1 b.1) (leafGroups fields)).flatMap (·.2)
  | value => [([], value)]

def leafGroups : List (String × Json) → List (String × List (List String × Json))
  | [] => []
  | (key, value) :: fields =>
    (key, (orderedLeaves value).map fun leaf => (key :: leaf.1, leaf.2)) :: leafGroups fields

end

theorem leafGroups_eq (fields : List (String × Json)) :
    leafGroups fields =
      fields.map fun field => (field.1, (orderedLeaves field.2).map fun leaf => (field.1 :: leaf.1, leaf.2)) := by
  induction fields with
  | nil => rfl
  | cons field fields ih => rw [leafGroups, ih, map_cons]

theorem fieldLines_eq (name : String) (fields : List (String × Json)) :
    fieldLines name fields =
      fields.map fun field => (field.1, propertyLines (name ++ "$" ++ escapeId field.1) field.2) := by
  induction fields with
  | nil => rfl
  | cons field fields ih => rw [fieldLines, ih, map_cons]

theorem orderedLeaves_value (h : ∀ fields, v ≠ .obj fields) : orderedLeaves v = [([], v)] := by
  cases v with
  | obj fields => exact absurd rfl (h fields)
  | _ => rfl

theorem propertyLines_value (name : String) (h : ∀ fields, v ≠ .obj fields) :
    propertyLines name v = "var " ++ name ++ " = " ++ v.text ++ "\n" := by
  cases v with
  | obj fields => exact absurd rfl (h fields)
  | _ => rfl

theorem orderedLeaves_perm (v : Json) : (orderedLeaves v).Perm (leaves v) := by
  induction v using Json.inductObj with
  | value v h => rw [orderedLeaves_value h, Setting.leaves_value h]
  | obj fields ih =>
    rw [orderedLeaves, Setting.leaves_obj, leafGroups_eq]
    refine ((mergeSort_perm _ _).flatMap_right _).trans ?_
    rw [flatMap_map]
    exact List.Perm.flatMap_left _ fun field hfield => (ih field hfield).map _

theorem join_flatMap {α : Type} (groups : List α) (f : α → List String) :
    String.join (groups.flatMap f) = String.join (groups.map fun group => String.join (f group)) := by
  induction groups with
  | nil => rfl
  | cons group groups ih => rw [flatMap_cons, String.join_append, ih, map_cons, String.join_cons]

theorem propertyLines_eq (name : String) (v : Json) :
    propertyLines name v = String.join ((orderedLeaves v).map (declaration name)) := by
  induction v using Json.inductObj generalizing name with
  | value v h =>
    rw [propertyLines_value name h, orderedLeaves_value h, map_singleton, String.join_cons]
    exact String.append_empty.symm
  | obj fields ih =>
    have hlines : fieldLines name fields =
        (leafGroups fields).map fun group => (group.1, String.join (group.2.map (declaration name))) := by
      rw [fieldLines_eq, leafGroups_eq, map_map]
      refine map_congr_left fun field hfield => ?_
      simp only [ih field hfield, Function.comp_apply, map_map]
      rfl
    have hsort : sortBy (fun a b => textLt a.1 b.1) (fieldLines name fields) =
        (sortBy (fun a b => textLt a.1 b.1) (leafGroups fields)).map
          fun group => (group.1, String.join (group.2.map (declaration name))) := by
      rw [hlines]
      refine (map_mergeSort ?_).symm
      intros
      rfl
    rw [propertyLines, orderedLeaves, hsort, map_map, map_flatMap, join_flatMap]
    rfl

/-- The variable of a property of the manifest in scripts. -/
def manifestVariable (way : List String) : String := "$" ++ "$".intercalate ("manifest" :: way)

def IsWord (key : String) : Prop := key.toList.all isIdChar = true

instance (key : String) : Decidable (IsWord key) := inferInstanceAs (Decidable (_ = _))

theorem IsWord.isIdChar (h : IsWord key) {c : Char} (hc : c ∈ key.toList) :
    isIdChar c = true := all_eq_true.mp h c hc

theorem IsWord.escapeId (h : IsWord key) : escapeId key = key := by
  apply String.toList_inj.mp
  rw [toList_escapeId]
  conv_rhs => rw [← map_id key.toList]
  exact map_congr_left fun c hc => if_pos (h.isIdChar hc)

theorem IsWord.not_mem (h : IsWord key) {c : Char} (hc : Package.isIdChar c = false) :
    c ∉ key.toList := fun hmem => by
  rw [h.isIdChar hmem] at hc
  cases hc

theorem variableBelow_eq (h : ∀ key ∈ way, IsWord key) : variableBelow name way = "$".intercalate (name :: way) := by
  induction way generalizing name with
  | nil => exact String.intercalate_singleton.symm
  | cons key way ih =>
    have hkey := (h key mem_cons_self).escapeId
    have hrest : variableBelow (name ++ "$" ++ key) way = "$".intercalate ((name ++ "$" ++ key) :: way) :=
      ih fun key hkey => h key (mem_cons_of_mem _ hkey)
    rw [variableBelow, foldl_cons, hkey, ← variableBelow, hrest]
    cases way with
    | nil => simp [String.intercalate_cons_cons]
    | cons next way => simp [String.intercalate_cons_cons, String.append_assoc]

/-- The variable declared for a property is that of references to it. -/
theorem variableBelow_manifest (h : ∀ key ∈ way, IsWord key) :
    variableBelow "$manifest" way = manifestVariable way := by
  rw [variableBelow_eq h, manifestVariable]
  cases way with
  | nil => decide
  | cons key way =>
    rw [String.intercalate_cons_cons, String.intercalate_cons_cons, ← String.append_assoc, ← String.append_assoc]
    rfl

theorem manifestVariable_injective {way' : List String} (h : ∀ key ∈ way, IsWord key)
    (h' : ∀ key ∈ way', IsWord key) (heq : manifestVariable way = manifestVariable way') : way = way' := by
  have hcut : ∀ way : List String, (∀ key ∈ way, IsWord key) →
      splitText '$' ("$".intercalate ("manifest" :: way)) = "manifest" :: way := by
    intro way h
    refine splitText_intercalate (cons_ne_nil _ _) fun part hpart => ?_
    rcases mem_cons.mp hpart with rfl | hpart
    · decide
    · exact (h part hpart).not_mem (by decide)
  have hsame : "$".intercalate ("manifest" :: way) = "$".intercalate ("manifest" :: way') :=
    (String.append_right_inj _).mp heq
  have hways := congrArg (splitText '$') hsame
  rw [hcut way h, hcut way' h'] at hways
  exact (List.cons.inj hways).2

end QmlScript.Compile

namespace QmlScript.Script

open List Package

variable {m : Type → Type} [Monad m] {way : List String}

theorem isLocalized_of_not_mem {s : List Char} (h : '(' ∉ s.tail) : isLocalized s = false := by
  induction s with
  | nil => rfl
  | cons c s ih =>
    have hcall : ∀ f : String, Text.startsWith (f ++ "(").toList s = false := by
      intro f
      rw [Text.startsWith, Option.isSome_eq_false_iff, Option.isNone_iff_eq_none, Option.eq_none_iff_forall_ne_some]
      exact fun rest hrest => h (Text.eq_append_of_after? hrest ▸ mem_append_left _ (by simp))
    have hcalls : callsLocalizer (c :: s) = false := by
      simp only [callsLocalizer, hcall]
      simp
    rw [isLocalized, hcalls, ih fun hmem => h (mem_of_mem_tail hmem)]
    rfl

theorem reference?_append {inside : List Char} (hbrace : '\x7d' ∉ inside) (hline : '\n' ∉ inside) (rest : List Char) :
    reference? ('$' :: '\x7b' :: (inside ++ '\x7d' :: rest)) = some (String.ofList inside, inside.length + 3) := by
  have hinside : (inside ++ '\x7d' :: rest).takeWhile (fun c => c ≠ '\x7d' && c ≠ '\n') = inside := by
    rw [takeWhile_append_of_pos, takeWhile_cons_of_neg (by simp), append_nil]
    intro c hc
    have hc₁ : c ≠ '\x7d' := fun heq => hbrace (heq ▸ hc)
    have hc₂ : c ≠ '\n' := fun heq => hline (heq ▸ hc)
    simp [hc₁, hc₂]
  simp only [reference?, hinside, drop_left]

theorem resolve_manifest (parent : String) (transform : String → m String) {inside : String}
    (hway : way ≠ []) (h : splitText '.' inside = "manifest" :: way) :
    resolve parent transform inside = pure (Compile.manifestVariable way, none) := by
  obtain ⟨key, rest, rfl⟩ := exists_cons_of_ne_nil hway
  simp only [resolve, h]
  rfl

theorem mem_intercalate {sep c : Char} {parts : List (List Char)} (h : c ∈ [sep].intercalate parts) :
    c = sep ∨ ∃ part ∈ parts, c ∈ part := by
  induction parts with
  | nil => cases h
  | cons part parts ih =>
    cases parts with
    | nil =>
      rw [intercalate_singleton] at h
      exact .inr ⟨part, mem_cons_self, h⟩
    | cons next parts =>
      rw [intercalate_cons_cons, append_assoc, mem_append, mem_append, mem_singleton] at h
      rcases h with h | rfl | h
      · exact .inr ⟨part, mem_cons_self, h⟩
      · exact .inl rfl
      · exact (ih h).imp_right fun ⟨other, hother, hc⟩ => ⟨other, mem_cons_of_mem _ hother, hc⟩

theorem not_mem_dotted (h : ∀ key ∈ way, Compile.IsWord key) {c : Char}
    (hid : isIdChar c = false) (hdot : c ≠ '.') : c ∉ (".".intercalate way).toList := by
  intro hmem
  rw [String.toList_intercalate] at hmem
  rcases mem_intercalate hmem with rfl | ⟨part, hpart, hc⟩
  · exact hdot rfl
  · obtain ⟨key, hkey, rfl⟩ := mem_map.mp hpart
    exact (h key hkey).not_mem hid hc

/-- A reference to the manifest becomes a variable and depends on nothing. -/
theorem dependencies_manifest [LawfulMonad m] (parent : String) (transform : String → m String)
    (hway : way ≠ []) (h : ∀ key ∈ way, Compile.IsWord key) :
    dependencies parent ("$\x7bmanifest." ++ ".".intercalate way ++ "\x7d") transform =
      pure (Compile.manifestVariable way, []) := by
  have hwords : ∀ key ∈ "manifest" :: way, Compile.IsWord key := forall_mem_cons.mpr ⟨by decide, h⟩
  have hinside : "manifest." ++ ".".intercalate way = ".".intercalate ("manifest" :: way) := by
    obtain ⟨key, rest, rfl⟩ := exists_cons_of_ne_nil hway
    rw [String.intercalate_cons_cons]
    rfl
  have hsplit : splitText '.' (".".intercalate ("manifest" :: way)) = "manifest" :: way :=
    splitText_intercalate (cons_ne_nil _ _) fun key hkey => (hwords key hkey).not_mem (by decide)
  have htext : ("$\x7bmanifest." ++ ".".intercalate way ++ "\x7d").toList =
      '$' :: '\x7b' :: ((".".intercalate ("manifest" :: way)).toList ++ ['\x7d']) := by
    rw [← hinside]
    simp
  have hlocalized : isLocalized ('$' :: '\x7b' :: ((".".intercalate ("manifest" :: way)).toList ++ ['\x7d'])) =
      false := by
    refine isLocalized_of_not_mem fun hmem => ?_
    simp only [tail_cons, mem_cons, mem_append, not_mem_nil, or_false] at hmem
    rcases hmem with hmem | hmem | hmem
    · exact absurd hmem (by decide)
    · exact not_mem_dotted hwords (by decide) (by decide) hmem
    · exact absurd hmem (by decide)
  have hfound := reference?_append (not_mem_dotted hwords (c := '\x7d') (by decide) (by decide))
    (not_mem_dotted hwords (c := '\n') (by decide) (by decide)) []
  rw [dependencies, htext, hlocalized, Text.pieces_cons_of_some hfound, drop_eq_nil_of_le (by simp),
    String.ofList_toList, resolvePieces, resolve_manifest parent transform hway hsplit]
  simp [Text.pieces, Text.piecesFrom, resolvePieces, orderedSet]

end QmlScript.Script

namespace QmlScript.Compile

open List

open Setting (leaves Merged)

/-- The lines in front of a program declare one variable for each leaf of the merged properties, with the
text of the leaf, and no two of these variables are the same. A reference to a leaf becomes its variable,
wherever it stands, and depends on nothing. -/
theorem properties_declared {fields : List (String × Json)} (hmerged : Merged (.obj fields))
    (hwords : ∀ leaf ∈ leaves (.obj fields), ∀ key ∈ leaf.1, IsWord key) :
    ∃ declared : List (List String × Json),
      declared.Perm (leaves (.obj fields)) ∧
      propertyLines "$manifest" (.obj fields) = String.join (declared.map fun leaf =>
        "var " ++ manifestVariable leaf.1 ++ " = " ++ leaf.2.text ++ "\n") ∧
      (declared.map fun leaf => manifestVariable leaf.1).Nodup ∧
      ∀ leaf ∈ declared, ∀ (m : Type → Type) [Monad m] [LawfulMonad m] (parent : String)
        (transform : String → m String),
        Script.dependencies parent ("$\x7bmanifest." ++ ".".intercalate leaf.1 ++ "\x7d") transform =
          pure (manifestVariable leaf.1, []) := by
  have hperm := orderedLeaves_perm (.obj fields)
  refine ⟨orderedLeaves (.obj fields), hperm, ?_, ?_, ?_⟩
  · rw [propertyLines_eq]
    refine congrArg String.join (map_congr_left fun leaf hleaf => ?_)
    rw [declaration, variableBelow_manifest (hwords leaf (hperm.mem_iff.mp hleaf))]
  · have hways : ((orderedLeaves (.obj fields)).map Prod.fst).Nodup :=
      (hperm.map Prod.fst).nodup_iff.mpr hmerged.keyed.nodup_ways
    have hvariables := hways.map_on (f := manifestVariable) ?_
    · rwa [map_map] at hvariables
    · simp only [mem_map]
      rintro _ ⟨leaf, hleaf, rfl⟩ _ ⟨leaf', hleaf', rfl⟩ heq
      exact manifestVariable_injective (hwords leaf (hperm.mem_iff.mp hleaf))
        (hwords leaf' (hperm.mem_iff.mp hleaf')) heq
  · intro leaf hleaf m _ _ parent transform
    have hmem := hperm.mem_iff.mp hleaf
    refine Script.dependencies_manifest parent transform ?_ (hwords leaf hmem)
    rw [Setting.leaves_obj] at hmem
    obtain ⟨field, -, hfield⟩ := mem_flatMap.mp hmem
    obtain ⟨inner, -, rfl⟩ := mem_map.mp hfield
    exact cons_ne_nil _ _

/-- Properties of two manifests, and what they are when they are merged. -/
def earlierProperties : Json :=
  .obj [("app.name", .str "old"), ("app", .obj [("size", .int 3), ("name", .str "first")])]

def laterProperties : Json := .obj [("app.name", .str "second"), ("debug_1", .bool true), ("none", .obj [])]

def mergedFields : List (String × Json) :=
  [("app", .obj [("size", .int 3), ("name", .str "second")]), ("debug_1", .bool true), ("none", .obj [])]

theorem mergedFields_merged : Merged (.obj mergedFields) := by
  have hfirst : Setting.merge (.obj []) earlierProperties =
      .ok (.obj [("app", .obj [("size", .int 3), ("name", .str "first")])]) := by cbv
  have hsecond : Setting.merge
      (.obj [("app", .obj [("size", .int 3), ("name", .str "first")])]) laterProperties =
      .ok (.obj mergedFields) := by cbv
  exact (Merged.empty.merge hfirst).merge hsecond

theorem properties_declared_sample :
    Merged (.obj mergedFields) ∧ (∀ leaf ∈ leaves (.obj mergedFields), ∀ key ∈ leaf.1, IsWord key) ∧
    ∃ declared : List (List String × Json),
      declared.Perm [(["app", "size"], .int 3), (["app", "name"], .str "second"), (["debug_1"], .bool true)] ∧
      propertyLines "$manifest" (.obj mergedFields) = String.join (declared.map fun leaf =>
        "var " ++ manifestVariable leaf.1 ++ " = " ++ leaf.2.text ++ "\n") := by
  have hwords : ∀ leaf ∈ leaves (.obj mergedFields), ∀ key ∈ leaf.1, IsWord key := by
    have hleaves : leaves (.obj mergedFields) =
      [(["app", "size"], .int 3), (["app", "name"], .str "second"), (["debug_1"], .bool true)] := by rfl
    rw [hleaves]
    simp only [forall_mem_cons]
    decide
  obtain ⟨declared, hperm, hlines, -⟩ := properties_declared mergedFields_merged hwords
  exact ⟨mergedFields_merged, hwords, declared, hperm, hlines⟩

end QmlScript.Compile
