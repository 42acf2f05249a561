import QmlScript.Json.Reader
import QmlScript.Proofs.Fields
import QmlScript.Proofs.Results

/-!
# What a JSON text spells

A text spells a value whose objects have their fields as they stand there, with dots in keys and with keys
that come again. Reading a text makes the objects of the spelled value, from the inside out.
-/

namespace QmlScript.Json

open Option

def spell (text : String) : Except (ReadError Empty) Json := readWith (fun fields => .ok (.obj fields)) text

section

variable {ε : Type} (build : List (String × Json) → Except ε Json)

mutual

/-- A value with its objects made anew, those inside of others first. -/
def rebuild : Json → Except ε Json
  | .arr items => do return .arr (← rebuildItems items)
  | .obj fields => do build (← rebuildFields fields)
  | value => .ok value

def rebuildItems : List Json → Except ε (List Json)
  | [] => .ok []
  | item :: items => do return (← rebuild item) :: (← rebuildItems items)

def rebuildFields : List (String × Json) → Except ε (List (String × Json))
  | [] => .ok []
  | (key, value) :: fields => do return (key, ← rebuild value) :: (← rebuildFields fields)

end

variable {build}
variable {v : Json} {s rest : List Char}

/-- A result with the rest of the spelled one and its value made anew. -/
def Follows {α β : Type} (make : α → Except ε β) (spelled : Except (ReadError Empty) (α × List Char))
    (result : Except (ReadError ε) (β × List Char)) : Prop :=
  ∀ a rest, spelled = .ok (a, rest) → result = ((make a).mapError .refused).map fun b => (b, rest)

section Follows

variable {α α' β β' : Type} {make : α → Except ε β} {make' : α' → Except ε β'}
  {spelled : Except (ReadError Empty) (α × List Char)} {result : Except (ReadError ε) (β × List Char)}

theorem Follows.of_error {e : ReadError Empty} : Follows make (.error e) result := by
  intro a rest h
  cases h

theorem Follows.of_ok {a : α} {b : β} {rest : List Char} (h : make a = .ok b) :
    Follows make (.ok (a, rest)) (.ok (b, rest)) := by
  intro a' rest' heq
  obtain ⟨rfl, rfl⟩ := Prod.mk.inj (Except.ok.inj heq)
  rw [h]
  rfl

theorem Follows.same (read : Except Fault (α × List Char)) :
    Follows (fun a => .ok a) (read.mapError .malformed) (read.mapError (.malformed : Fault → ReadError ε)) := by
  cases read with
  | error e => exact .of_error
  | ok found => exact .of_ok rfl

/-- One result after another: if the first cannot be made, the whole fails for that reason. -/
theorem Follows.bind {next : α × List Char → Except (ReadError Empty) (α' × List Char)}
    {next' : β × List Char → Except (ReadError ε) (β' × List Char)} (h : Follows make spelled result)
    (hok : ∀ a b rest, make a = .ok b → Follows make' (next (a, rest)) (next' (b, rest)))
    (herror : ∀ a e rest found, make a = .error e → next (a, rest) = .ok found → make' found.1 = .error e) :
    Follows make' (spelled >>= next) (result >>= next') := by
  cases spelled with
  | error e => exact .of_error
  | ok found =>
    obtain ⟨a, s⟩ := found
    have hresult := h a s rfl
    cases hmake : make a with
    | error e =>
      intro a' rest hnext
      rw [hresult, hmake, herror a e s (a', rest) hmake hnext]
      rfl
    | ok b =>
      rw [hresult, hmake]
      exact hok a b s hmake

end Follows

variable (build) in
/-- Up to a depth, what is read goes along with what is spelled. -/
structure Agrees (depth : Nat) : Prop where
  value : ∀ s, Follows (rebuild build) (readValue (fun fields => .ok (.obj fields)) depth s) (readValue build depth s)
  items : ∀ s,
    Follows (rebuildItems build) (readItems (fun fields => .ok (.obj fields)) depth s) (readItems build depth s)
  fields : ∀ s,
    Follows (rebuildFields build) (readFields (fun fields => .ok (.obj fields)) depth s) (readFields build depth s)

theorem rebuild_error {e : ε} {items : List Json} (h : rebuild build v = .error e) :
    rebuildItems build (v :: items) = .error e := by
  rw [rebuildItems, h]
  rfl

theorem Agrees.next_items {depth : Nat} (h : Agrees build depth) (s : List Char) :
    Follows (rebuildItems build) (readItems (fun fields => .ok (.obj fields)) (depth + 1) s)
      (readItems build (depth + 1) s) := by
  unfold readItems
  refine (h.value s).bind (fun item value rest hitem => ?_) fun item e rest found hitem hnext => ?_
  · dsimp only
    split
    · rename_i s' _
      refine (h.items (skipGap s')).bind (fun items values rest hrest => ?_) fun items e rest found hrest hnext => ?_
      · exact .of_ok (by rw [rebuildItems, hitem, hrest]; rfl)
      · cases hnext
        rw [rebuildItems, hitem, hrest]
        rfl
    · exact .of_ok (by rw [rebuildItems, hitem]; rfl)
    · exact .of_error
  · dsimp only at hnext
    split at hnext
    · obtain ⟨others, -, hnext⟩ := of_bind_eq_ok hnext
      cases hnext
      exact rebuild_error hitem
    · cases hnext
      exact rebuild_error hitem
    · cases hnext

theorem rebuildFields_error {key : String} {e : ε} {fields : List (String × Json)} (h : rebuild build v = .error e) :
    rebuildFields build ((key, v) :: fields) = .error e := by
  rw [rebuildFields, h]
  rfl

theorem Agrees.next_fields {depth : Nat} (h : Agrees build depth) (s : List Char) :
    Follows (rebuildFields build) (readFields (fun fields => .ok (.obj fields)) (depth + 1) s)
      (readFields build (depth + 1) s) := by
  unfold readFields
  split
  · refine (Follows.same _).bind (fun key key' rest hkey => ?_) fun _ _ _ _ herror => by cases herror
    cases hkey
    dsimp only
    split
    · rename_i s _
      refine (h.value (skipGap s)).bind (fun v value rest hv => ?_) fun v e rest found hv hnext => ?_
      · dsimp only
        split
        · rename_i s' _
          refine (h.fields (skipGap s')).bind (fun fields values rest hrest => ?_)
            fun fields e rest found hrest hnext => ?_
          · exact .of_ok (by rw [rebuildFields, hv, hrest]; rfl)
          · cases hnext
            rw [rebuildFields, hv, hrest]
            rfl
        · exact .of_ok (by rw [rebuildFields, hv]; rfl)
        · exact .of_error
      · dsimp only at hnext
        split at hnext
        · obtain ⟨others, -, hnext⟩ := of_bind_eq_ok hnext
          cases hnext
          exact rebuildFields_error hv
        · cases hnext
          exact rebuildFields_error hv
        · cases hnext
    · exact .of_error
  · exact .of_error

theorem Follows.obj {fields fields' : List (String × Json)} (h : rebuildFields build fields = .ok fields') :
    Follows (rebuild build) (.ok (.obj fields, rest))
      (do return (← (build fields').mapError .refused, rest)) := by
  intro v rest' heq
  obtain ⟨rfl, rfl⟩ := Prod.mk.inj (Except.ok.inj heq)
  have hmake : rebuild build (.obj fields) = build fields' := by
    rw [rebuild, h]
    rfl
  rw [hmake]
  cases build fields' <;> rfl

theorem rebuild_scalar (h : v.IsScalar) : rebuild build v = .ok v := by
  cases v with
  | arr items | obj fields => exact h.elim
  | _ => rfl

theorem isScalar_of_readWord? (h : readWord? s = some (v, rest)) : v.IsScalar := by
  have hwords : ∀ word ∈ words, word.2.IsScalar := by
    intro word hword
    simp only [words, List.mem_cons, List.not_mem_nil, or_false] at hword
    rcases hword with rfl | rfl | rfl | rfl | rfl | rfl <;> trivial
  obtain ⟨⟨word, value⟩, hword, hfound⟩ := List.exists_of_findSome?_eq_some h
  dsimp only at hfound
  split at hfound
  · obtain ⟨rfl, -⟩ := Prod.mk.inj (some.inj hfound)
    exact hwords _ hword
  · cases hfound

theorem isScalar_of_readNumber? {negative : Bool} (h : readNumber? negative s = some (.ok v, rest)) : v.IsScalar := by
  simp only [readNumber?, bind_eq_bind, bind_eq_some_iff] at h
  obtain ⟨⟨whole, s⟩, -, h⟩ := h
  split at h
  · split at h
    · cases h
    · obtain ⟨n, -, hn⟩ := bind_eq_some_iff.mp h
      cases hn
      trivial
  · obtain ⟨n, -, hn⟩ := bind_eq_some_iff.mp h
    cases hn
    trivial

theorem agrees (depth : Nat) : Agrees build depth := by
  induction depth with
  | zero => exact ⟨fun _ => .of_error, fun _ => .of_error, fun _ => .of_error⟩
  | succ depth ih =>
    refine ⟨fun s => ?_, ih.next_items, ih.next_fields⟩
    unfold readValue
    split
    · refine (Follows.same _).bind (fun cs cs' rest hcs => ?_) fun _ _ _ _ herror => by cases herror
      cases hcs
      exact .of_ok rfl
    · split
      · exact .of_ok rfl
      · refine (ih.items _).bind (fun items values rest hitems => ?_) fun items e rest found hitems hnext => ?_
        · exact .of_ok (by rw [rebuild, hitems]; rfl)
        · cases hnext
          rw [rebuild, hitems]
          rfl
    · split
      · exact .obj rfl
      · refine (ih.fields _).bind (fun fields values rest hfields => .obj hfields)
          fun fields e rest found hfields hnext => ?_
        cases hnext
        rw [rebuild, hfields]
        rfl
    · split
      · rename_i found hword
        exact .of_ok (rebuild_scalar (isScalar_of_readWord? hword))
      · split
        all_goals
          dsimp only
          split
          · rename_i value rest hfound
            cases value with
            | error e => exact .of_error
            | ok v => exact .of_ok (rebuild_scalar (isScalar_of_readNumber? hfound))
          · exact .of_error

theorem readWith_of_spell {text : String} (h : spell text = .ok v) :
    readWith build text = (rebuild build v).mapError .refused := by
  unfold spell readWith at h
  unfold readWith
  dsimp only at h ⊢
  split at h
  · cases h
  · rename_i hmark
    rw [if_neg hmark]
    obtain ⟨⟨value, rest⟩, hspelled, h⟩ := of_bind_eq_ok h
    dsimp only at h
    split at h
    · rename_i hrest
      cases h
      rw [(agrees _).value _ _ _ hspelled]
      cases rebuild build v with
      | error e => rfl
      | ok d => exact if_pos hrest
    · cases h

end
end QmlScript.Json
