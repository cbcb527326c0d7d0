import Conform.Json.Location

/-!
Reading and writing at locations. What is written at a location is read there; a step down that goes
another way reads what it read before; and writing in two stages, first down to an inner value and
then inside it, is writing at the whole location. At locations of which neither lies below the other
the order of writing does not matter (`put_comm`). The laws hold of objects with repeated names too,
since reading and writing agree on the first member of a name.
-/

set_option autoImplicit false

namespace Conform.Json

/-! ### Members -/

section Members

variable {name other : String} {value old : Json} {members : List (String × Json)}

theorem member?_setMember_self (name : String) (value : Json) (members : List (String × Json)) :
    member? name (setMember name value members) = some value := by
  induction members with
  | nil => simp [setMember, member?]
  | cons entry rest ih =>
    obtain ⟨key, old⟩ := entry
    by_cases hkey : key = name
    · simp [setMember, member?, hkey]
    · simp [setMember, member?, hkey, ih]

theorem member?_setMember_of_ne (hne : other ≠ name) (value : Json)
    (members : List (String × Json)) :
    member? other (setMember name value members) = member? other members := by
  induction members with
  | nil => simp [setMember, member?, hne.symm]
  | cons entry rest ih =>
    obtain ⟨key, old⟩ := entry
    by_cases hkey : key = name
    · simp [setMember, member?, hkey, hne.symm]
    · simp [setMember, member?, hkey, ih]

theorem setMember_of_member? (hold : member? name members = some old) :
    setMember name old members = members := by
  induction members with
  | nil => simp [member?] at hold
  | cons entry rest ih =>
    obtain ⟨key, inner⟩ := entry
    by_cases hkey : key = name
    · rw [member?, if_pos hkey, Option.some.injEq] at hold
      rw [setMember, if_pos hkey, hold, hkey]
    · rw [member?, if_neg hkey] at hold
      rw [setMember, if_neg hkey, ih hold]

theorem setMember_comm (hold : member? name members = some old) (hne : other ≠ name)
    (value new : Json) :
    setMember other new (setMember name value members) =
      setMember name value (setMember other new members) := by
  induction members with
  | nil => simp [member?] at hold
  | cons entry rest ih =>
    obtain ⟨key, inner⟩ := entry
    by_cases hkey : key = name
    · simp [setMember, hkey, hne.symm]
    · rw [member?, if_neg hkey] at hold
      by_cases hother : key = other
      · simp [setMember, hother, hne]
      · simp [setMember, hkey, hother, ih hold]

theorem setMember_setMember (name : String) (old value : Json) (members : List (String × Json)) :
    setMember name value (setMember name old members) = setMember name value members := by
  induction members with
  | nil => simp [setMember]
  | cons entry rest ih =>
    obtain ⟨key, inner⟩ := entry
    by_cases hkey : key = name
    · simp [setMember, hkey]
    · simp [setMember, hkey, ih]

end Members

/-! ### Steps -/

section Steps

variable {value inner new : Json} {step other : Step}

theorem child?_setChild_self (hinner : value.child? step = some inner) (new : Json) :
    (value.setChild step new).child? step = some new := by
  cases value <;> cases step <;> simp only [child?, reduceCtorEq] at hinner
  case array.item items position =>
    have hbound : position < items.length := (List.getElem?_eq_some_iff.mp hinner).1
    simp [setChild, child?, hbound]
  case object.member members name =>
    exact member?_setMember_self name new members

theorem child?_setChild_of_ne (hne : other ≠ step) (value new : Json) :
    (value.setChild step new).child? other = value.child? other := by
  cases value <;> cases step <;> cases other <;> try rfl
  case array.item.item items position position' =>
    have hposition : position ≠ position' := fun h ↦ hne (by rw [h])
    simp [setChild, child?, hposition]
  case object.member.member members name name' =>
    exact member?_setMember_of_ne (fun h ↦ hne (by rw [h])) new members

theorem setChild_child? (hinner : value.child? step = some inner) :
    value.setChild step inner = value := by
  cases value <;> cases step <;> simp only [child?, reduceCtorEq] at hinner
  case array.item items position =>
    obtain ⟨hbound, hitem⟩ := List.getElem?_eq_some_iff.mp hinner
    rw [setChild, ← hitem, List.set_getElem_self]
  case object.member members name =>
    rw [setChild, setMember_of_member? hinner]

theorem setChild_setChild (value : Json) (step : Step) (old new : Json) :
    (value.setChild step old).setChild step new = value.setChild step new := by
  cases value <;> cases step <;> try rfl
  case array.item items position => rw [setChild, setChild, List.set_set, setChild]
  case object.member members name => rw [setChild, setChild, setMember_setMember, setChild]

theorem setChild_comm (hinner : value.child? step = some inner) (hne : other ≠ step)
    (new next : Json) :
    (value.setChild step new).setChild other next =
      (value.setChild other next).setChild step new := by
  cases value <;> cases step <;> cases other <;> try rfl
  case array.item.item items position position' =>
    have hposition : position ≠ position' := fun h ↦ hne (by rw [h])
    rw [setChild, setChild, setChild, setChild, List.set_comm _ _ hposition]
  case object.member.member members name name' =>
    have hname : name' ≠ name := fun h ↦ hne (by rw [h])
    rw [setChild, setChild, setChild, setChild, setMember_comm hinner hname]

end Steps

/-! ### Locations -/

section Locations

variable {value inner : Json} {step : Step} {front : Location}

@[simp] theorem at?_nil (value : Json) : value.at? [] = some value := rfl

@[simp] theorem put_nil (value new : Json) : value.put [] new = new := rfl

theorem at?_cons (value : Json) (step : Step) (rest : Location) :
    value.at? (step :: rest) = (value.child? step).bind (·.at? rest) := rfl

theorem at?_append (hinner : value.at? front = some inner) (back : Location) :
    value.at? (front ++ back) = inner.at? back := by
  induction front generalizing value with
  | nil =>
    rw [at?_nil, Option.some.injEq] at hinner
    rw [hinner, List.nil_append]
  | cons step rest ih =>
    rw [at?_cons, Option.bind_eq_some_iff] at hinner
    obtain ⟨child, hchild, hrest⟩ := hinner
    rw [List.cons_append, at?_cons, hchild, Option.bind_some, ih hrest]

theorem put_cons (hinner : value.child? step = some inner) (rest : Location) (new : Json) :
    value.put (step :: rest) new = value.setChild step (inner.put rest new) := by
  simp [put, hinner]

theorem put_cons_of_none (hnone : value.child? step = none) (rest : Location) (new : Json) :
    value.put (step :: rest) new = value := by
  simp [put, hnone]

theorem child?_put_of_ne {other : Step} (hne : other ≠ step) (value : Json) (rest : Location)
    (new : Json) : (value.put (step :: rest) new).child? other = value.child? other := by
  cases hchild : value.child? step with
  | none => rw [put_cons_of_none hchild]
  | some child => rw [put_cons hchild, child?_setChild_of_ne hne]

/-- Writing below a location is writing the inner value, changed, at the location itself. -/
theorem put_append (hinner : value.at? front = some inner) (back : Location) (new : Json) :
    value.put (front ++ back) new = value.put front (inner.put back new) := by
  induction front generalizing value with
  | nil =>
    rw [at?_nil, Option.some.injEq] at hinner
    rw [hinner, List.nil_append, put_nil]
  | cons step rest ih =>
    rw [at?_cons, Option.bind_eq_some_iff] at hinner
    obtain ⟨child, hchild, hrest⟩ := hinner
    rw [List.cons_append, put_cons hchild, put_cons hchild, ih hrest]

/-- What is written at a location that exists is read there. -/
theorem at?_put_self (hinner : value.at? front = some inner) (new : Json) :
    (value.put front new).at? front = some new := by
  induction front generalizing value with
  | nil => rfl
  | cons step rest ih =>
    rw [at?_cons, Option.bind_eq_some_iff] at hinner
    obtain ⟨child, hchild, hrest⟩ := hinner
    rw [put_cons hchild, at?_cons, child?_setChild_self hchild]
    exact ih hrest

/-- Writing what is read changes nothing. -/
theorem put_at? (hinner : value.at? front = some inner) : value.put front inner = value := by
  induction front generalizing value with
  | nil => rw [at?_nil, Option.some.injEq] at hinner; rw [put_nil, hinner]
  | cons step rest ih =>
    rw [at?_cons, Option.bind_eq_some_iff] at hinner
    obtain ⟨child, hchild, hrest⟩ := hinner
    rw [put_cons hchild, ih hrest, setChild_child? hchild]

/-- Of two values written at one location the last one stays. -/
theorem put_put (value : Json) (location : Location) (old new : Json) :
    (value.put location old).put location new = value.put location new := by
  induction location generalizing value with
  | nil => rfl
  | cons step rest ih =>
    cases hchild : value.child? step with
    | none => simp [put, hchild]
    | some child =>
      rw [put_cons hchild, put_cons (child?_setChild_self hchild _), put_cons hchild,
        setChild_setChild, ih]

/-- Without such a location nothing is written. -/
theorem put_of_none (hnone : value.at? front = none) (new : Json) :
    value.put front new = value := by
  induction front generalizing value with
  | nil => rw [at?_nil] at hnone; contradiction
  | cons step rest ih =>
    cases hchild : value.child? step with
    | none => exact put_cons_of_none hchild rest new
    | some child =>
      rw [at?_cons, hchild, Option.bind_some] at hnone
      rw [put_cons hchild, ih hnone, setChild_child? hchild]

end Locations

/-! ### Locations apart -/

/-- Locations that part at some step: neither lies below the other. -/
inductive Apart : Location → Location → Prop
  | fork {step other : Step} (hne : step ≠ other) (rest rest' : Location) :
    Apart (step :: rest) (other :: rest')
  | along (step : Step) {rest rest' : Location} (hrest : Apart rest rest') :
    Apart (step :: rest) (step :: rest')

section Apart

variable {location other : Location}

theorem Apart.symm (hapart : Apart location other) : Apart other location := by
  induction hapart with
  | fork hne rest rest' => exact .fork hne.symm rest' rest
  | along step _ ih => exact .along step ih

theorem Apart.append (hapart : Apart location other) (front : Location) :
    Apart (front ++ location) (front ++ other) := by
  induction front with
  | nil => exact hapart
  | cons step rest ih => exact .along step ih

/-- What is written at one location is not seen at the other. -/
theorem at?_put_of_apart (hapart : Apart location other) (value new : Json) :
    (value.put other new).at? location = value.at? location := by
  induction hapart generalizing value with
  | fork hne rest rest' => rw [at?_cons, at?_cons, child?_put_of_ne hne]
  | along step _ ih =>
    cases hchild : value.child? step with
    | none => rw [put_cons_of_none hchild]
    | some child =>
      rw [put_cons hchild, at?_cons, at?_cons, child?_setChild_self hchild, hchild]
      exact ih child

/-- Values written at two locations may be written in either order. -/
theorem put_comm (hapart : Apart location other) (value new next : Json) :
    (value.put location new).put other next = (value.put other next).put location new := by
  induction hapart generalizing value with
  | @fork step other hne rest rest' =>
    have hstep := child?_put_of_ne hne value rest' next
    have hother := child?_put_of_ne hne.symm value rest new
    cases hchild : value.child? step with
    | none => rw [put_cons_of_none hchild, put_cons_of_none (hstep.trans hchild)]
    | some child =>
      cases hinner : value.child? other with
      | none => rw [put_cons_of_none hinner, put_cons_of_none (hother.trans hinner)]
      | some inner =>
        rw [put_cons (hother.trans hinner), put_cons (hstep.trans hchild), put_cons hchild,
          put_cons hinner, setChild_comm hchild hne.symm]
  | along step _ ih =>
    cases hchild : value.child? step with
    | none => simp only [put_cons_of_none hchild]
    | some child =>
      rw [put_cons hchild, put_cons hchild, put_cons (child?_setChild_self hchild _),
        put_cons (child?_setChild_self hchild _), setChild_setChild, setChild_setChild, ih]

end Apart

end Conform.Json
