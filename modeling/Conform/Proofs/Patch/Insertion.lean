import Conform.Proofs.Patch.Lens
import Mathlib.Data.List.InsertIdx

/-!
Adding one value. A patch of one addition applies exactly if its pointer without the last token
leads to a container that takes a value by that token (`add_insertionLaws`): an object takes any
token as a name, an array takes its end and the positions up to it, which may be written with a plus
sign and with zeros in front. Then the value stands in the container, whatever else the container
held is kept and in order, and nothing outside the container changes. Where a replacement by the
same pointer would apply, the addition sets the same member, or makes room at the same position.
-/

set_option autoImplicit false

namespace Conform.Patch

open Json Pointer

/-- An operation that inserts a value by the last token of a pointer. -/
def addAt (path : String) (value : Json) : Operation :=
  ⟨.add, path, value⟩

/-! ### Containers -/

/-- A token that names a place between the elements of an array: its end, or a position up to it. -/
def IsPlace (token : List Char) (length position : Nat) : Prop :=
  (token = ['-'] ∧ position = length) ∨ (Text.Writes token position ∧ position ≤ length)

/-- A container that takes a value by a token. -/
inductive Takes (token : List Char) : Json → Prop
  | object (members : List (String × Json)) : Takes token (.object members)
  | array {items : List Json} {position : Nat} (hplace : IsPlace token items.length position) :
    Takes token (.array items)

/-- A container before and after it took a value: what it holds besides is the same, and in the same
order in an array. -/
inductive Inserted (token : List Char) (value : Json) : Json → Json → Prop
  | member {members others : List (String × Json)}
    (hself : member? (String.ofList token) others = some value)
    (hothers : ∀ name, name ≠ String.ofList token → member? name others = member? name members) :
    Inserted token value (.object members) (.object others)
  | item {items others : List Json} {position : Nat} (hplace : IsPlace token items.length position)
    (hself : others[position]? = some value) (hothers : others.eraseIdx position = items) :
    Inserted token value (.array items) (.array others)

section Containers

variable {token : List Char} {value parent final : Json} {path front : String}
  {items : List Json} {position : Nat}

theorem not_writes_dash : ¬ Text.Writes ['-'] position := by
  rintro ⟨digits, rfl | hdigits, -, hall, -⟩
  · exact absurd (hall '-' List.mem_cons_self) (by decide)
  · exact absurd (List.cons.inj hdigits).1 (by decide)

/-- An array takes a value at the place that the token names. -/
theorem insertInto_of_isPlace (hplace : IsPlace token items.length position) :
    insertInto (.array items) token value path front =
      .ok (.array (items.insertIdx position value)) := by
  rw [insertInto]
  rcases hplace with ⟨rfl, rfl⟩ | ⟨hwrites, hposition⟩
  · rw [if_pos rfl, List.insertIdx_length_self]
  · have htoken : token ≠ ['-'] := by
      rintro rfl
      exact not_writes_dash hwrites
    rw [if_neg htoken, Text.unsigned?_eq_some_iff.mpr hwrites, Option.filter_some,
      if_pos (decide_eq_true hposition)]

theorem exists_isPlace (hfinal : insertInto (.array items) token value path front = .ok final) :
    ∃ position, IsPlace token items.length position := by
  by_cases htoken : token = ['-']
  · exact ⟨items.length, .inl ⟨htoken, rfl⟩⟩
  · rw [insertInto, if_neg htoken] at hfinal
    split at hfinal
    · rename_i position hread
      obtain ⟨hread, hposition⟩ := Option.filter_eq_some_iff.mp hread
      exact ⟨position, .inr ⟨Text.unsigned?_eq_some_iff.mp hread, of_decide_eq_true hposition⟩⟩
    · contradiction

theorem takes_iff_insertInto :
    Takes token parent ↔ ∃ final, insertInto parent token value path front = .ok final := by
  constructor
  · rintro (members | hplace)
    · exact ⟨_, rfl⟩
    · exact ⟨_, insertInto_of_isPlace hplace⟩
  · rintro ⟨final, hfinal⟩
    cases parent with
    | object members => exact .object members
    | array items =>
      obtain ⟨position, hplace⟩ := exists_isPlace hfinal
      exact .array hplace
    | _ => contradiction

theorem inserted_insertIdx (hplace : IsPlace token items.length position) (value : Json) :
    Inserted token value (.array items) (.array (items.insertIdx position value)) := by
  have hposition : position ≤ items.length := by
    rcases hplace with ⟨-, rfl⟩ | ⟨-, hposition⟩
    · exact Nat.le_refl _
    · exact hposition
  refine .item hplace ?_ (List.eraseIdx_insertIdx_self value)
  rw [List.getElem?_insertIdx_self, if_pos hposition]

theorem inserted_of_insertInto (hfinal : insertInto parent token value path front = .ok final) :
    Inserted token value parent final := by
  cases parent with
  | object members =>
    obtain rfl := Except.ok.inj hfinal
    exact .member (member?_setMember_self ..) fun name hname ↦
      member?_setMember_of_ne hname value members
  | array items =>
    obtain ⟨position, hplace⟩ := exists_isPlace hfinal
    rw [insertInto_of_isPlace hplace] at hfinal
    obtain rfl := Except.ok.inj hfinal
    exact inserted_insertIdx hplace value
  | _ => contradiction

end Containers

/-! ### Additions -/

section Run

variable {document value result parent : Json} {path front : String} {token : List Char}
  {location : Location}

theorem add_of_endsIn (hends : EndsIn path front token)
    (hlocation : resolve? document front = some location)
    (hparent : document.at? location = some parent) (value : Json) :
    add path value document =
      (insertInto parent (decodeToken token) value path front).map (document.put location) := by
  simp only [add, cutLast_eq_some_iff_endsIn.mpr hends, String.ofList_toList, hlocation, hparent]

theorem add_eq_ok_iff :
    add path value document = .ok result ↔
      ∃ front token location parent final, EndsIn path front token ∧
        resolve? document front = some location ∧ document.at? location = some parent ∧
        insertInto parent (decodeToken token) value path front = .ok final ∧
        result = document.put location final := by
  constructor
  · intro hadd
    unfold add at hadd
    split at hadd
    · contradiction
    · rename_i front token hcut
      dsimp only at hadd
      split at hadd
      · contradiction
      · rename_i location hlocation
        split at hadd
        · contradiction
        · rename_i parent hparent
          have hends : EndsIn path (String.ofList front) token := by
            rwa [← cutLast_eq_some_iff_endsIn, String.toList_ofList]
          cases hfinal : insertInto parent (decodeToken token) value path (String.ofList front) with
          | error fault => rw [hfinal] at hadd; contradiction
          | ok final =>
            rw [hfinal] at hadd
            exact ⟨String.ofList front, token, location, parent, final, hends, hlocation, hparent,
              hfinal, (Except.ok.inj hadd).symm⟩
  · rintro ⟨front, token, location, parent, final, hends, hlocation, hparent, hfinal, rfl⟩
    rw [add_of_endsIn hends hlocation hparent, hfinal]
    rfl

theorem run_addAt_eq_iff :
    run [addAt path value] document = (result, none) ↔ add path value document = .ok result := by
  rw [run, addAt, Operation.apply]
  cases add path value document with
  | ok next => simp [run]
  | error fault => simp

theorem run_addAt_fault_iff :
    (run [addAt path value] document).2 = none ↔
      ∃ result, add path value document = .ok result := by
  constructor
  · intro hnone
    exact ⟨_, run_addAt_eq_iff.mp (Prod.ext rfl hnone)⟩
  · rintro ⟨result, hresult⟩
    rw [run_addAt_eq_iff.mpr hresult]

/-- An addition that fails leaves the document as it is. -/
theorem run_addAt_failed (hfault : (run [addAt path value] document).2 ≠ none) :
    (run [addAt path value] document).1 = document := by
  rw [run, addAt, Operation.apply] at hfault ⊢
  dsimp only at hfault ⊢
  cases hadd : add path value document with
  | ok next => rw [hadd] at hfault; exact absurd rfl hfault
  | error fault => rfl

theorem addAt_applies_iff (document : Json) (path : String) (value : Json) :
    (run [addAt path value] document).2 = none ↔
      ∃ front token parent, EndsIn path front token ∧ read? document front = some parent ∧
        Takes (decodeToken token) parent := by
  rw [run_addAt_fault_iff]
  constructor
  · rintro ⟨result, hresult⟩
    obtain ⟨front, token, location, parent, final, hends, hlocation, hparent, hfinal, -⟩ :=
      add_eq_ok_iff.mp hresult
    refine ⟨front, token, parent, hends, ?_, takes_iff_insertInto.mpr ⟨final, hfinal⟩⟩
    rw [read?, hlocation, Option.bind_some, hparent]
  · rintro ⟨front, token, parent, hends, hread, htakes⟩
    obtain ⟨location, hlocation, hparent⟩ := exists_resolve?_of_read? hread
    obtain ⟨final, hfinal⟩ := takes_iff_insertInto.mp htakes
    exact ⟨_, add_eq_ok_iff.mpr
      ⟨front, token, location, parent, final, hends, hlocation, hparent, hfinal, rfl⟩⟩

theorem exists_inserted (hrun : run [addAt path value] document = (result, none)) :
    ∃ front token location parent final, EndsIn path front token ∧
      resolve? document front = some location ∧ document.at? location = some parent ∧
      result.at? location = some final ∧ Inserted (decodeToken token) value parent final ∧
      OnlyAt location document result := by
  obtain ⟨front, token, location, parent, final, hends, hlocation, hparent, hfinal, rfl⟩ :=
    add_eq_ok_iff.mp (run_addAt_eq_iff.mp hrun)
  exact ⟨front, token, location, parent, final, hends, hlocation, hparent,
    at?_put_self hparent final, inserted_of_insertInto hfinal, onlyAt_put hparent final⟩

end Run

/-! ### Additions and replacements -/

/-- What an addition does by a pointer that leads somewhere: it sets the member that a replacement
would set, or makes room in the array at the position that a replacement would write, which is below
the bound of a word as all positions in memory are. -/
inductive Agrees (document : Json) (path : String) (value : Json) : Location → Prop
  | member (front : Location) (name : String)
    (hsame : run [addAt path value] document = run [replaceAt path value] document) :
    Agrees document path value (front ++ [.member name])
  | item {front : Location} {items : List Json} {position : Nat}
    (hitems : document.at? front = some (.array items)) (hposition : position < items.length)
    (hroom : position < Text.wordBound → run [addAt path value] document =
      (document.put front (.array (items.insertIdx position value)), none)) :
    Agrees document path value (front ++ [.item position])

section Agrees

variable {document value : Json} {path front : String} {token : List Char}
  {above location : Location}

theorem run_addAt_member {members : List (String × Json)} (hends : EndsIn path front token)
    (habove : resolve? document front = some above)
    (hmembers : document.at? above = some (.object members)) (value : Json) :
    run [addAt path value] document =
      (document.put above (.object (setMember (String.ofList (decodeToken token)) value members)),
        none) := by
  rw [run_addAt_eq_iff, add_of_endsIn hends habove hmembers]
  rfl

theorem agrees_of_resolve? (hlocation : resolve? document path = some location) (hne : path ≠ "")
    (value : Json) : Agrees document path value location := by
  obtain ⟨front, token, hends⟩ := exists_endsIn hlocation hne
  obtain ⟨above, parent, step, inner, habove, hparent, hstep, hinner, rfl⟩ :=
    (resolve?_eq_some_iff_of_endsIn hends).mp hlocation
  cases parent with
  | object members =>
    obtain rfl := Option.some.inj hstep
    refine .member above _ ?_
    rw [run_addAt_member hends habove hparent, run_replaceAt hlocation, run, put_append hparent,
      put_cons hinner]
    rfl
  | array items =>
    obtain ⟨position, hposition, rfl⟩ := Option.map_eq_some_iff.mp hstep
    obtain ⟨hbound, -⟩ := List.getElem?_eq_some_iff.mp hinner
    refine .item hparent hbound fun hword ↦ ?_
    have hplace : IsPlace (decodeToken token) items.length position :=
      .inr ⟨position?_eq_some_iff.mp hposition ▸ Text.writes_toDigits hword, Nat.le_of_lt hbound⟩
    rw [run_addAt_eq_iff, add_of_endsIn hends habove hparent, insertInto_of_isPlace hplace]
    rfl
  | _ => contradiction

end Agrees

/-- The laws of the additions by one pointer in one document. -/
structure InsertionLaws (document : Json) (path : String) : Prop where
  applies_iff : ∀ value, (run [addAt path value] document).2 = none ↔
    ∃ front token parent, EndsIn path front token ∧ read? document front = some parent ∧
      Takes (decodeToken token) parent
  failed : ∀ value, (run [addAt path value] document).2 ≠ none →
    (run [addAt path value] document).1 = document
  inserted : ∀ value result, run [addAt path value] document = (result, none) →
    ∃ front token location parent final, EndsIn path front token ∧
      resolve? document front = some location ∧ document.at? location = some parent ∧
      result.at? location = some final ∧ Inserted (decodeToken token) value parent final ∧
      OnlyAt location document result
  agrees : ∀ value location, path ≠ "" → resolve? document path = some location →
    Agrees document path value location

theorem add_insertionLaws (document : Json) (path : String) : InsertionLaws document path where
  applies_iff value := addAt_applies_iff document path value
  failed _ hfault := run_addAt_failed hfault
  inserted _ _ hrun := exists_inserted hrun
  agrees value _ hne hlocation := agrees_of_resolve? hlocation hne value

/-- An addition reads positions that no replacement reads. -/
example :
    run [addAt "/a/+01" .null] (.object [("a", .array [.bool true])]) =
        (.object [("a", .array [.bool true, .null])], none) ∧
      resolve? (.object [("a", .array [.bool true, .null])]) "/a/+01" = none :=
  ⟨rfl, rfl⟩

end Conform.Patch
