import Conform.Json.Pointer
import Conform.Proofs.Json.Location
import Conform.Proofs.Text.Decimal
import Conform.Proofs.Text.Occurrence
import Mathlib.Tactic.SplitIfs

/-!
Pointers written for locations. Escaping a member's name is undone by reading its token, a position
is read back from its digits, and neither writes a slash, so the tokens of a written pointer are the
steps of its location one by one. A pointer therefore leads into a value step by step: below a
location that exists it goes on as the rest of it would from the inner value.
-/

set_option autoImplicit false

namespace Conform

namespace Json.Pointer

/-! ### Tokens -/

/-- The token of a step before escaping. -/
def plainToken : Step → List Char
  | .member name => name.toList
  | .item position => Nat.toDigits 10 position

theorem encodeToken_cons (c : Char) (name : List Char) :
    encodeToken (c :: name) =
      (if c = '~' then ['~', '0'] else if c = '/' then ['~', '1'] else [c]) ++ encodeToken name :=
  rfl

theorem slash_notMem_encodeToken (name : List Char) : '/' ∉ encodeToken name := by
  induction name with
  | nil => simp [encodeToken]
  | cons c rest ih =>
    rw [encodeToken_cons, List.mem_append, not_or]
    refine ⟨?_, ih⟩
    split_ifs with htilde hslash
    · decide
    · decide
    · simpa using Ne.symm hslash

/-- Reading `~1` first leaves the tildes escaped. -/
theorem contract_encodeToken (name : List Char) :
    Text.contract '~' '1' '/' (encodeToken name) =
      name.flatMap fun c ↦ if c = '~' then ['~', '0'] else [c] := by
  induction name with
  | nil => rfl
  | cons c rest ih =>
    rw [encodeToken_cons, List.flatMap_cons, ← ih]
    by_cases htilde : c = '~'
    · rw [if_pos htilde, if_pos htilde]
      change '~' :: Text.contract '~' '1' '/' ('0' :: encodeToken rest) = _
      rw [Text.contract_cons_of_ne (by decide)]
      rfl
    · rw [if_neg htilde, if_neg htilde]
      by_cases hslash : c = '/'
      · rw [if_pos hslash, hslash]
        rfl
      · rw [if_neg hslash]
        exact Text.contract_cons_of_ne htilde '1' '/' (encodeToken rest)

/-- Escaping is undone by reading. -/
theorem decodeToken_encodeToken (name : List Char) : decodeToken (encodeToken name) = name := by
  rw [decodeToken, contract_encodeToken]
  induction name with
  | nil => rfl
  | cons c rest ih =>
    rw [List.flatMap_cons]
    by_cases htilde : c = '~'
    · rw [if_pos htilde, htilde]
      exact congrArg ('~' :: ·) ih
    · rw [if_neg htilde, List.singleton_append, Text.contract_cons_of_ne htilde, ih]

/-- What a written pointer holds for a step, behind the slash. -/
def token : Step → List Char
  | .member name => encodeToken name.toList
  | .item position => Nat.toDigits 10 position

theorem ofStep_eq (step : Step) : ofStep step = '/' :: token step := by
  cases step <;> rfl

theorem notMem_toDigits {c : Char} (hc : c.isDigit = false) (position : Nat) :
    c ∉ Nat.toDigits 10 position := by
  intro hmem
  have hdigit := Nat.isDigit_of_mem_toDigits (by decide) (by decide) hmem
  rw [hc] at hdigit
  contradiction

theorem slash_notMem_token (step : Step) : '/' ∉ token step := by
  cases step with
  | member name => exact slash_notMem_encodeToken name.toList
  | item position => exact notMem_toDigits (by decide) position

theorem decodeToken_token (step : Step) : decodeToken (token step) = plainToken step := by
  cases step with
  | member name => exact decodeToken_encodeToken name.toList
  | item position =>
    have htilde : '~' ∉ Nat.toDigits 10 position := notMem_toDigits (by decide) position
    rw [token, plainToken, decodeToken, Text.contract_of_notMem htilde,
      Text.contract_of_notMem htilde]

theorem splitAt_ofStep (step : Step) (location : Location) :
    Text.splitAt '/' (token step ++ location.flatMap ofStep) =
      token step :: location.map token := by
  induction location generalizing step with
  | nil => rw [List.flatMap_nil, List.append_nil, Text.splitAt_of_notMem (slash_notMem_token step),
      List.map_nil]
  | cons next rest ih =>
    rw [List.flatMap_cons, ofStep_eq, List.cons_append, Text.splitAt_append,
      Text.splitAt_of_notMem (slash_notMem_token step), ih, List.map_cons, List.singleton_append]

/-- The tokens of the pointer written for a location are its steps. -/
theorem tokens?_ofLocation (location : Location) :
    tokens? (ofLocation location).toList = some (location.map plainToken) := by
  rw [ofLocation, String.toList_ofList]
  cases location with
  | nil => rfl
  | cons step rest =>
    rw [List.flatMap_cons, ofStep_eq, List.cons_append]
    change some ((Text.splitAt '/' (token step ++ rest.flatMap ofStep)).map decodeToken) = _
    rw [splitAt_ofStep, List.map_cons, List.map_cons, List.map_map, decodeToken_token]
    congr 2
    exact List.map_congr_left fun other _ ↦ decodeToken_token other

theorem ofLocation_append (front back : Location) :
    ofLocation (front ++ back) = ofLocation front ++ ofLocation back := by
  simp only [ofLocation, List.flatMap_append, String.ofList_append]

/-! ### Leading into a value -/

/-- A position is read from its digits and from no other text. -/
theorem position?_eq_some_iff {token : List Char} {position : Nat} :
    position? token = some position ↔ token = Nat.toDigits 10 position := by
  unfold position?
  split
  · rename_i c rest
    simpa using (Text.toDigits_ne_zero_cons position c rest).symm
  · rename_i hzeros
    constructor
    · intro hdigits
      obtain ⟨hne, hall, rfl⟩ := Text.digits?_eq_some_iff.mp hdigits
      by_cases hhead : token.head? = some '0'
      · obtain ⟨rest, rfl⟩ := List.head?_eq_some_iff.mp hhead
        cases rest with
        | nil => decide
        | cons c rest => exact absurd rfl (hzeros c rest)
      · exact (Text.toDigits_ofDigitChars hne hall hhead).symm
    · rintro rfl
      exact Text.digits?_toDigits position

theorem position?_toDigits (position : Nat) :
    position? (Nat.toDigits 10 position) = some position :=
  position?_eq_some_iff.mpr rfl

theorem resolve?_ofLocation (value : Json) (location : Location) :
    resolve? value (ofLocation location) = locate? value (location.map plainToken) := by
  rw [resolve?, tokens?_ofLocation, Option.bind_some]

/-- A step that exists is the one its token takes. -/
theorem step?_plainToken {value inner : Json} {step : Step}
    (hinner : value.child? step = some inner) : step? value (plainToken step) = some step := by
  cases value <;> cases step <;> simp only [child?, reduceCtorEq] at hinner
  case array.item items position =>
    rw [step?, plainToken, position?_toDigits, Option.map_some]
  case object.member members name =>
    rw [step?, plainToken, String.ofList_toList]

/-- Tokens lead on from the value that the first one steps to. -/
theorem locate?_cons_eq_some_iff {value : Json} {token : List Char} {rest : List (List Char)}
    {location : Location} :
    locate? value (token :: rest) = some location ↔
      ∃ step inner below, step? value token = some step ∧ value.child? step = some inner ∧
        locate? inner rest = some below ∧ location = step :: below := by
  simp only [locate?, Option.bind_eq_bind, Option.bind_eq_some_iff, Option.pure_def,
    Option.some.injEq]
  constructor
  · rintro ⟨step, hstep, inner, hinner, below, hbelow, rfl⟩
    exact ⟨step, inner, below, hstep, hinner, hbelow, rfl⟩
  · rintro ⟨step, inner, below, hstep, hinner, hbelow, rfl⟩
    exact ⟨step, hstep, inner, hinner, below, hbelow, rfl⟩

theorem locate?_cons {value inner : Json} {step : Step} (hinner : value.child? step = some inner)
    (tokens : List (List Char)) :
    locate? value (plainToken step :: tokens) = (locate? inner tokens).map (step :: ·) := by
  rw [locate?, step?_plainToken hinner]
  change (value.child? step).bind (fun inner ↦ (locate? inner tokens).bind fun rest ↦
    some (step :: rest)) = _
  rw [hinner, Option.bind_some]
  cases locate? inner tokens <;> rfl

/-- Below a location that exists a written pointer leads as the rest of it leads from there. -/
theorem resolve?_ofLocation_append {value inner : Json} {front : Location}
    (hinner : value.at? front = some inner) (back : Location) :
    resolve? value (ofLocation (front ++ back)) =
      (resolve? inner (ofLocation back)).map (front ++ ·) := by
  rw [resolve?_ofLocation, resolve?_ofLocation]
  induction front generalizing value with
  | nil =>
    rw [at?_nil, Option.some.injEq] at hinner
    simp [hinner]
  | cons step rest ih =>
    rw [at?_cons, Option.bind_eq_some_iff] at hinner
    obtain ⟨child, hchild, hrest⟩ := hinner
    rw [List.cons_append, List.map_cons, locate?_cons hchild, ih hrest, Option.map_map]
    rfl

/-- The pointer written for a location that exists leads there. -/
theorem resolve?_ofLocation_self {value inner : Json} {location : Location}
    (hinner : value.at? location = some inner) :
    resolve? value (ofLocation location) = some location := by
  have happend := resolve?_ofLocation_append hinner []
  rw [List.append_nil] at happend
  rw [happend, resolve?_ofLocation]
  simp [locate?]

/-- In an object the pointer of a name leads to its member, if there is one. -/
theorem resolve?_ofLocation_member (members : List (String × Json)) (name : String) :
    resolve? (.object members) (ofLocation [.member name]) =
      (member? name members).map fun _ ↦ [.member name] := by
  rw [resolve?_ofLocation, List.map_cons, List.map_nil, locate?, step?, plainToken,
    String.ofList_toList]
  change (member? name members).bind _ = _
  cases member? name members <;> rfl

/-- A written pointer that leads somewhere takes its first token's step, and the rest of it leads on
from there. -/
theorem exists_of_resolve?_ofLocation_cons {value : Json} {step : Step} {rest place : Location}
    (hplace : resolve? value (ofLocation (step :: rest)) = some place) :
    ∃ taken inner below, step? value (plainToken step) = some taken ∧
      value.child? taken = some inner ∧ resolve? inner (ofLocation rest) = some below ∧
      place = taken :: below := by
  rw [resolve?_ofLocation, List.map_cons] at hplace
  obtain ⟨taken, inner, below, htaken, hinner, hbelow, rfl⟩ := locate?_cons_eq_some_iff.mp hplace
  exact ⟨taken, inner, below, htaken, hinner, (resolve?_ofLocation inner rest).trans hbelow, rfl⟩

end Json.Pointer
end Conform
