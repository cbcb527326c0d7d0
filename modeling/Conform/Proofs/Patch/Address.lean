import Conform.Proofs.Patch.Insertion

/-!
Addresses. Names of any characters are escaped in two passes, tildes first and slashes then, and
read back (`decodeToken_escape`). So every location of a document has a pointer, which leads to it
and to no other (`document_addressable`): a replacement by it writes there, and so does an addition
if the location is a member of an object. Both are read back by the pointer that wrote them, and a
replacement changes nothing that a pointer reads at a location apart from its own.
-/

set_option autoImplicit false

namespace Conform

namespace Json.Pointer

/-! ### Escaping in two passes -/

/-- A text with another one in place of every occurrence of a character. -/
def substitute (mark : Char) (text cs : List Char) : List Char :=
  cs.flatMap fun c ↦ if c = mark then text else [c]

/-- A name with its tildes escaped, and then its slashes. -/
def escape (name : List Char) : List Char :=
  substitute '/' ['~', '1'] (substitute '~' ['~', '0'] name)

/-- The pointer that tells a location by escaped names and by positions in decimal digits. -/
def pointerTo (location : Location) : String :=
  String.ofList (location.flatMap fun
    | .member name => '/' :: escape name.toList
    | .item position => '/' :: Nat.toDigits 10 position)

theorem substitute_append (mark : Char) (text front back : List Char) :
    substitute mark text (front ++ back) =
      substitute mark text front ++ substitute mark text back :=
  List.flatMap_append

/-- The second pass meets no slash that the first one wrote, so that one pass does what both do. -/
theorem escape_eq_encodeToken (name : List Char) : escape name = encodeToken name := by
  induction name with
  | nil => rfl
  | cons c rest ih =>
    have hfirst : substitute '~' ['~', '0'] (c :: rest) =
        (if c = '~' then ['~', '0'] else [c]) ++ substitute '~' ['~', '0'] rest := rfl
    rw [escape, hfirst, substitute_append, encodeToken_cons, ← ih, escape]
    congr 1
    by_cases htilde : c = '~'
    · rw [if_pos htilde, if_pos htilde]
      rfl
    · rw [if_neg htilde, if_neg htilde]
      exact List.flatMap_singleton _ c

theorem pointerTo_eq_ofLocation (location : Location) :
    pointerTo location = ofLocation location := by
  rw [pointerTo, ofLocation]
  congr 2
  funext step
  cases step with
  | member name => exact congrArg ('/' :: ·) (escape_eq_encodeToken name.toList)
  | item position => rfl

theorem decodeToken_escape (name : List Char) : decodeToken (escape name) = name := by
  rw [escape_eq_encodeToken, decodeToken_encodeToken]

theorem endsIn_pointerTo (front : Location) (step : Step) :
    EndsIn (pointerTo (front ++ [step])) (pointerTo front) (token step) := by
  refine ⟨?_, slash_notMem_token step⟩
  rw [pointerTo_eq_ofLocation, pointerTo_eq_ofLocation, ofLocation_append, String.toList_append]
  simp [ofLocation, ofStep_eq]

theorem resolve?_pointerTo {document inner : Json} {location : Location}
    (hinner : document.at? location = some inner) :
    resolve? document (pointerTo location) = some location := by
  rw [pointerTo_eq_ofLocation, resolve?_ofLocation_self hinner]

theorem read?_pointerTo {document inner : Json} {location : Location}
    (hinner : document.at? location = some inner) :
    read? document (pointerTo location) = some inner := by
  rw [read?, resolve?_pointerTo hinner, Option.bind_some, hinner]

/-- A value that is written elsewhere changes nothing of what the pointer of a location reads. -/
theorem read?_put_pointerTo_of_apart {document target : Json} {location other : Location}
    (hapart : Apart other location) (htarget : document.at? other = some target) (value : Json) :
    read? (document.put location value) (pointerTo other) = some target :=
  read?_pointerTo ((at?_put_of_apart hapart document value).trans htarget)

/-- In one document different locations have different pointers. -/
theorem pointerTo_injOn {document inner target : Json} {location other : Location}
    (hinner : document.at? location = some inner) (htarget : document.at? other = some target)
    (hsame : pointerTo location = pointerTo other) : location = other := by
  have hlocation := resolve?_pointerTo hinner
  rw [hsame, resolve?_pointerTo htarget] at hlocation
  exact (Option.some.inj hlocation).symm

end Json.Pointer

namespace Patch

open Json Pointer

/-! ### Operations on locations -/

section Operations

variable {document inner : Json} {front location : Location} {name : String}

theorem run_replaceAt_pointerTo (hinner : document.at? location = some inner) (value : Json) :
    run [replaceAt (pointerTo location) value] document = (document.put location value, none) := by
  rw [run_replaceAt (resolve?_pointerTo hinner), run]

/-- An addition sets the member of a name, whether the object has one or not. -/
theorem run_addAt_pointerTo {members : List (String × Json)}
    (hmembers : document.at? front = some (.object members)) (name : String) (value : Json) :
    run [addAt (pointerTo (front ++ [.member name])) value] document =
      (document.put front (.object (setMember name value members)), none) := by
  rw [run_addAt_member (endsIn_pointerTo front _) (resolve?_pointerTo hmembers) hmembers,
    decodeToken_token, plainToken, String.ofList_toList]

/-- A member is read back by the pointer that added it. -/
theorem read?_addAt_pointerTo {members : List (String × Json)}
    (hmembers : document.at? front = some (.object members)) (name : String) (value : Json) :
    read? (run [addAt (pointerTo (front ++ [.member name])) value] document).1
      (pointerTo (front ++ [.member name])) = some value := by
  have hmember : (Json.object (setMember name value members)).child? (.member name) = some value :=
    member?_setMember_self name value members
  rw [run_addAt_pointerTo hmembers]
  refine read?_pointerTo ?_
  rw [at?_append (at?_put_self hmembers _), at?_cons, hmember, Option.bind_some, at?_nil]

theorem exists_object_of_at?_member (hinner : document.at? (front ++ [.member name]) = some inner) :
    ∃ members, document.at? front = some (.object members) ∧
      (Json.object members).child? (.member name) = some inner := by
  obtain ⟨parent, hparent, hchild⟩ := at?_append_eq_some_iff.mp hinner
  rw [at?_cons, Option.bind_eq_some_iff] at hchild
  obtain ⟨child, hchild, hnil⟩ := hchild
  obtain rfl := Option.some.inj hnil
  cases parent with
  | object members => exact ⟨members, hparent, hchild⟩
  | _ => contradiction

theorem run_addAt_pointerTo_of_at? (hinner : document.at? (front ++ [.member name]) = some inner)
    (value : Json) :
    run [addAt (pointerTo (front ++ [.member name])) value] document =
      (document.put (front ++ [.member name]) value, none) := by
  obtain ⟨members, hmembers, hmember⟩ := exists_object_of_at?_member hinner
  rw [run_addAt_pointerTo hmembers, put_append hmembers, put_cons hmember, put_nil, setChild]

end Operations

/-- A document in which every location is told by a pointer of its own. -/
structure Addressable (document : Json) : Prop where
  resolved : ∀ location inner, document.at? location = some inner →
    resolve? document (pointerTo location) = some location
  reads : ∀ location inner, document.at? location = some inner →
    read? document (pointerTo location) = some inner
  replaced : ∀ location inner value, document.at? location = some inner →
    run [replaceAt (pointerTo location) value] document = (document.put location value, none)
  added : ∀ front name inner value, document.at? (front ++ [.member name]) = some inner →
    run [addAt (pointerTo (front ++ [.member name])) value] document =
      (document.put (front ++ [.member name]) value, none)
  /-- A member that is not there yet is added by the pointer it has then. -/
  created : ∀ front members name value, document.at? front = some (.object members) →
    run [addAt (pointerTo (front ++ [.member name])) value] document =
      (document.put front (.object (setMember name value members)), none)
  /-- The pointer that wrote a value reads it back. -/
  readBack : ∀ location inner value, document.at? location = some inner →
    read? (run [replaceAt (pointerTo location) value] document).1 (pointerTo location) = some value
  readAdded : ∀ front members name value, document.at? front = some (.object members) →
    read? (run [addAt (pointerTo (front ++ [.member name])) value] document).1
      (pointerTo (front ++ [.member name])) = some value
  /-- The pointer of a location apart reads what it did. -/
  kept : ∀ location other inner target value, document.at? location = some inner →
    document.at? other = some target → Apart other location →
    read? (run [replaceAt (pointerTo location) value] document).1 (pointerTo other) = some target
  unescaped : ∀ name, decodeToken (escape name) = name
  distinct : ∀ location other inner target, document.at? location = some inner →
    document.at? other = some target → pointerTo location = pointerTo other → location = other

theorem document_addressable (document : Json) : Addressable document where
  resolved _ _ hinner := resolve?_pointerTo hinner
  reads _ _ hinner := read?_pointerTo hinner
  replaced _ _ value hinner := run_replaceAt_pointerTo hinner value
  added _ _ _ value hinner := run_addAt_pointerTo_of_at? hinner value
  created _ _ name value hmembers := run_addAt_pointerTo hmembers name value
  readBack _ _ value hinner := by
    rw [run_replaceAt_pointerTo hinner]
    exact read?_put_self (resolve?_pointerTo hinner) value
  readAdded _ _ name value hmembers := read?_addAt_pointerTo hmembers name value
  kept _ _ _ _ value hinner htarget hapart := by
    rw [run_replaceAt_pointerTo hinner]
    exact read?_put_pointerTo_of_apart hapart htarget value
  unescaped name := decodeToken_escape name
  distinct _ _ _ _ hinner htarget hsame := pointerTo_injOn hinner htarget hsame

example : pointerTo [.member "~1/", .member "", .item 10] = "/~01~1//10" := by
  decide

end Patch
end Conform
