import Conform.Json.Record
import Mathlib.Data.List.Forall2
import Mathlib.Data.List.Perm.Basic

/-!
The forms in which a record is told. A record says of each field under which name it stands, which
forms tell its value and whether it may be left out; a form tells the record if it is an object that
holds these fields in any order, with members of unknown names among them, or an array of the fields
in their own order (`Tells`). Decoding finds exactly the fields that are there
(`fields?_eq_some_iff`), so it reads a record from the forms that tell it and from no other
(`bind_fields?_eq_some_iff`).
-/

set_option autoImplicit false

namespace Conform.Json

variable {α β : Type}

theorem mapM_eq_some_iff {γ : Type} {read : γ → Option β} {items : List γ} {records : List β} :
    items.mapM read = some records ↔
      List.Forall₂ (fun record item ↦ read item = some record) records items := by
  induction items generalizing records with
  | nil => simp [eq_comm]
  | cons item rest ih =>
    simp only [List.mapM_cons, Option.bind_eq_bind, Option.bind_eq_some_iff, ih,
      Option.pure_def, Option.some.injEq, List.forall₂_cons_right_iff]
    constructor
    · rintro ⟨record, hrecord, records, hrecords, rfl⟩
      exact ⟨record, records, hrecord, hrecords, rfl⟩
    · rintro ⟨record, records, hrecord, hrecords, rfl⟩
      exact ⟨record, hrecord, records, hrecords, rfl⟩

/-! ### Values -/

section Values

variable [Form α]

def IsText (text : String) (form : α) : Prop :=
  Form.layer form = .string text

/-- A text that may be missing, which `null` tells. -/
def IsOptionalText : Option String → α → Prop
  | some text, form => IsText text form
  | none, form => Form.layer form = .null

/-- A name out of a closed list: the name itself, or an object with `null` under the name. -/
def IsChoice (name : String) (form : α) : Prop :=
  IsText name form ∨ ∃ inner, Form.layer form = .object [(name, inner)] ∧ Form.layer inner = .null

/-- A value of any kind, told by itself. -/
def IsValue (value : Json) (form : α) : Prop :=
  Form.value? form = some value

/-- An array that tells records one after the other. -/
def IsList (tells : β → α → Prop) (records : List β) (form : α) : Prop :=
  ∃ items, Form.layer form = .array items ∧ List.Forall₂ tells records items

theorem string?_eq_some_iff (form : α) (text : String) :
    string? form = some text ↔ IsText text form := by
  rw [string?, IsText]
  cases Form.layer form <;> simp

theorem option?_eq_some_iff (form : α) (text : Option String) :
    option? string? form = some text ↔ IsOptionalText text form := by
  rw [option?]
  cases text with
  | none => cases hlayer : Form.layer form <;> simp [IsOptionalText, hlayer]
  | some text => cases hlayer : Form.layer form <;> simp [IsOptionalText, IsText, string?, hlayer]

/-- Assumes: a reader that knows a record by its name. -/
theorem choice?_eq_some_iff {read : String → Option β} {name : β → String}
    (hread : ∀ text record, read text = some record ↔ text = name record) (form : α) (record : β) :
    choice? read form = some record ↔ IsChoice (name record) form := by
  rw [choice?, IsChoice, IsText]
  split
  · rename_i text hlayer
    simp [hlayer, hread]
  · rename_i key inner hlayer
    cases hinner : Form.layer inner <;> simp [hlayer, hread, hinner]
  · rename_i hother hsingle
    simp only [reduceCtorEq, false_iff, not_or, not_exists, not_and]
    exact ⟨fun hlayer ↦ hother _ hlayer, fun inner hlayer ↦ absurd hlayer (hsingle _ inner)⟩

/-- Assumes: a reader that reads a record from the forms that tell it. -/
theorem list?_eq_some_iff {decode : α → Option β} {tells : β → α → Prop}
    (hdecode : ∀ item record, decode item = some record ↔ tells record item) (form : α)
    (records : List β) :
    list? decode form = some records ↔ IsList tells records form := by
  rw [list?, IsList]
  cases hlayer : Form.layer form <;> simp [mapM_eq_some_iff, hdecode]

end Values

/-! ### Fields -/

/-- What a record says of one of its fields: its name, the forms that tell its value, and whether it
may be left out. -/
structure RecordField (α : Type) where
  name : String
  tells : α → Prop
  mayMiss : Prop

namespace RecordField

/-- A field that has to be there. -/
def required (name : String) (tells : α → Prop) : RecordField α :=
  ⟨name, tells, False⟩

/-- A field that may be left out when it has its default. -/
def optional (name : String) (default value : β) (tells : β → α → Prop) : RecordField α :=
  ⟨name, tells value, value = default⟩

/-- What is found for a field tells it. -/
def Found (field : RecordField α) : Option α → Prop
  | some form => field.tells form
  | none => field.mayMiss

@[simp] theorem found_required_some (name : String) (tells : α → Prop) (form : α) :
    (required name tells).Found (some form) ↔ tells form := .rfl

@[simp] theorem found_optional_some (name : String) (default value : β) (tells : β → α → Prop)
    (form : α) : (optional name default value tells).Found (some form) ↔ tells value form := .rfl

@[simp] theorem found_optional_none (name : String) (default value : β) (tells : β → α → Prop) :
    (optional name default value tells).Found none ↔ value = default := .rfl

end RecordField

section Fields

variable {found : Option α} {name : String} {value default : β} {decode : α → Option β}
  {tells : β → α → Prop}

theorem required?_eq_some_iff
    (hdecode : ∀ item record, decode item = some record ↔ tells record item) :
    required? decode found = some value ↔
      (RecordField.required name (tells value)).Found found := by
  cases found with
  | none => simp [required?, RecordField.Found, RecordField.required]
  | some form => exact hdecode form value

theorem orElse?_eq_some_iff
    (hdecode : ∀ item record, decode item = some record ↔ tells record item) :
    orElse? default decode found = some value ↔
      (RecordField.optional name default value tells).Found found := by
  cases found with
  | none => simp [orElse?, RecordField.Found, RecordField.optional, eq_comm]
  | some form => exact hdecode form value

end Fields

/-! ### Records -/

/-- The members that stand for the fields found. -/
def entries : List String → List (Option α) → List (String × α)
  | name :: names, form :: found => form.toList.map (name, ·) ++ entries names found
  | _, _ => []

section Entries

variable {name : String} {names : List String} {found : List (Option α)}
  {members others : List (String × α)}

theorem mem_names_of_mem_entries {entry : String × α} (hmem : entry ∈ entries names found) :
    entry.1 ∈ names := by
  induction names generalizing found with
  | nil => cases found <;> cases hmem
  | cons name names ih =>
    cases found with
    | nil => cases hmem
    | cons form found =>
      rw [entries, List.mem_append, List.mem_map] at hmem
      rcases hmem with ⟨_, _, rfl⟩ | hrest
      · exact List.mem_cons_self
      · exact List.mem_cons_of_mem _ (ih hrest)

/-- The members of a name are those asked for, which are one or none. -/
theorem only?_eq_some_iff {form : Option α} :
    only? name members = some form ↔
      (members.filter (·.1 = name)).Perm (form.toList.map (name, ·)) := by
  have hname : ∀ entry ∈ members.filter (·.1 = name), entry.1 = name := fun entry hentry ↦ by
    simpa using (List.mem_filter.mp hentry).2
  rw [only?]
  generalize members.filter (·.1 = name) = named at hname
  rcases named with _ | ⟨⟨key, value⟩, _ | ⟨second, rest⟩⟩
  · cases form <;> simp
  · have hkey : key = name := hname _ List.mem_cons_self
    cases form <;> simp [hkey]
  · cases form <;> simp

/-- Members of one name set apart from the others. -/
theorem perm_append_iff {named kept : List (String × α)} (hname : name ∉ names)
    (hnamed : ∀ entry ∈ named, entry.1 = name) (hkept : ∀ entry ∈ kept, entry.1 ≠ name) :
    ((members.filter (·.1 = name)).Perm named ∧
        ∃ others, members.Perm (kept ++ others) ∧ ∀ entry ∈ others, entry.1 ∉ names) ↔
      ∃ others, members.Perm (named ++ kept ++ others) ∧
        ∀ entry ∈ others, entry.1 ∉ name :: names := by
  have hnone : kept.filter (·.1 = name) = [] := by simpa [List.filter_eq_nil_iff] using hkept
  constructor
  · rintro ⟨hfilter, others, hmembers, hothers⟩
    have hsame : (others.filter (·.1 = name)).Perm named := by
      have hboth := hmembers.filter (·.1 = name)
      rw [List.filter_append, hnone, List.nil_append] at hboth
      exact hboth.symm.trans hfilter
    let rest := others.filter fun entry ↦ !decide (entry.1 = name)
    have hsplit : others.Perm (named ++ rest) :=
      (List.filter_append_perm (fun entry ↦ decide (entry.1 = name)) others).symm.trans
        (hsame.append_right rest)
    refine ⟨rest, ?_, fun entry hentry ↦ ?_⟩
    · have hall : members.Perm (kept ++ named ++ rest) := by
        rw [List.append_assoc]
        exact hmembers.trans (hsplit.append_left kept)
      exact hall.trans (List.perm_append_comm.append_right rest)
    · obtain ⟨hentry, hne⟩ := List.mem_filter.mp hentry
      exact List.not_mem_cons_of_ne_of_not_mem (by simpa using hne) (hothers entry hentry)
  · rintro ⟨others, hmembers, hothers⟩
    have hnone' : others.filter (·.1 = name) = [] := by
      refine List.filter_eq_nil_iff.mpr fun entry hentry ↦ ?_
      simpa using List.ne_of_not_mem_cons (hothers entry hentry)
    refine ⟨?_, named ++ others, ?_, fun entry hentry ↦ ?_⟩
    · have hself : named.filter (·.1 = name) = named := by
        simpa [List.filter_eq_self] using hnamed
      have hboth := hmembers.filter (·.1 = name)
      rwa [List.filter_append, List.filter_append, hnone, hnone', hself, List.append_nil,
        List.append_nil] at hboth
    · rw [← List.append_assoc]
      exact hmembers.trans (List.perm_append_comm.append_right others)
    · rcases List.mem_append.mp hentry with hentry | hentry
      · rwa [hnamed entry hentry]
      · exact List.not_mem_of_not_mem_cons (hothers entry hentry)

/-- Each name has the form found for it exactly if the members are these forms under their names,
in any order, and others of none of the names. -/
theorem mapM_only?_eq_some_iff (hnodup : names.Nodup) :
    (names.mapM fun name ↦ only? name members) = some found ↔
      found.length = names.length ∧ ∃ others, members.Perm (entries names found ++ others) ∧
        ∀ entry ∈ others, entry.1 ∉ names := by
  rw [mapM_eq_some_iff]
  induction names generalizing found with
  | nil =>
    rw [List.forall₂_nil_right_iff, List.length_nil, List.length_eq_zero_iff]
    refine (and_iff_left_of_imp ?_).symm
    rintro rfl
    exact ⟨members, .refl _, fun _ _ ↦ List.not_mem_nil⟩
  | cons name names ih =>
    obtain ⟨hname, hnames⟩ := List.nodup_cons.mp hnodup
    cases found with
    | nil => simp
    | cons form found =>
      rw [List.forall₂_cons, ih hnames, only?_eq_some_iff, List.length_cons, List.length_cons,
        Nat.add_right_cancel_iff, and_left_comm]
      refine and_congr_right fun _ ↦ perm_append_iff hname ?_ fun entry hentry hentryName ↦ ?_
      · simp
      · exact hname (hentryName ▸ mem_names_of_mem_entries hentry)

end Entries

/-- A form in which these forms are found under these names: an object that has them as members, in
any order and with members of other names among them, or an array of them, in which those missing at
its end are left out. -/
inductive Spelled [Form α] (names : List String) (found : List (Option α)) (form : α) : Prop
  | object {members others : List (String × α)} (hlayer : Form.layer form = .object members)
      (hmembers : members.Perm (entries names found ++ others))
      (hothers : ∀ entry ∈ others, entry.1 ∉ names)
  | array {items : List α} {missing : Nat} (hlayer : Form.layer form = .array items)
      (hfound : found = items.map some ++ List.replicate missing none)

/-- A form that tells a record, by what the record says of its fields. -/
def Tells [Form α] (fields : List (RecordField α)) (form : α) : Prop :=
  ∃ found, List.Forall₂ RecordField.Found fields found ∧
    Spelled (fields.map RecordField.name) found form

section Tells

variable [Form α] {form : α} {names : List String} {found : List (Option α)}

theorem fields?_eq_some_iff (hnodup : names.Nodup) :
    fields? names form = some found ↔ found.length = names.length ∧ Spelled names found form := by
  rw [fields?]
  constructor
  · intro hfields
    split at hfields
    · rename_i members hlayer
      obtain ⟨hlength, others, hmembers, hothers⟩ := (mapM_only?_eq_some_iff hnodup).mp hfields
      exact ⟨hlength, .object hlayer hmembers hothers⟩
    · rename_i items hlayer
      split at hfields
      · obtain rfl := Option.some.inj hfields
        exact ⟨by simp; omega, .array hlayer rfl⟩
      · contradiction
    · contradiction
  · rintro ⟨hlength, hspelled⟩
    cases hspelled with
    | object hlayer hmembers hothers =>
      rw [hlayer]
      exact (mapM_only?_eq_some_iff hnodup).mpr ⟨hlength, _, hmembers, hothers⟩
    | @array items missing hlayer hfound =>
      subst hfound
      simp only [List.length_append, List.length_map, List.length_replicate] at hlength
      rw [hlayer]
      simp only
      rw [if_pos (by omega), ← hlength, Nat.add_sub_cancel_left]

/-- Assumes: fields of different names, and a reader that reads a record from what its fields may be
found as. -/
theorem bind_fields?_eq_some_iff {read : List (Option α) → Option β} {fields : List (RecordField α)}
    {record : β} (hnodup : names.Nodup) (hnames : fields.map RecordField.name = names)
    (hread : ∀ found, read found = some record ↔ List.Forall₂ RecordField.Found fields found) :
    (fields? names form).bind read = some record ↔ Tells fields form := by
  simp only [Option.bind_eq_some_iff, fields?_eq_some_iff hnodup, hread, Tells, hnames]
  refine exists_congr fun found ↦ ?_
  constructor
  · rintro ⟨⟨_, hspelled⟩, hfound⟩
    exact ⟨hfound, hspelled⟩
  · rintro ⟨hfound, hspelled⟩
    refine ⟨⟨?_, hspelled⟩, hfound⟩
    rw [← hfound.length_eq, ← hnames, List.length_map]

end Tells

/-! ### Values that are written -/

@[simp] theorem isText_string (text : String) : IsText text (Json.string text) := rfl

@[simp] theorem isChoice_string (name : String) : IsChoice name (Json.string name) := .inl rfl

@[simp] theorem isValue_self (value : Json) : IsValue value value := rfl

/-- Assumes: an encoding that tells the record. -/
theorem isList_map {encode : β → Json} {tells : β → Json → Prop}
    (htells : ∀ record, tells record (encode record)) (records : List β) :
    IsList tells records (.array (records.map encode)) :=
  ⟨_, rfl, List.forall₂_map_right_iff.mpr (List.forall₂_same.mpr fun record _ ↦ htells record)⟩

/-- An object of the fields found, in their order and without other members. -/
theorem tells_object {fields : List (RecordField Json)} {json : Json} (found : List (Option Json))
    (hjson : json = .object (entries (fields.map RecordField.name) found))
    (hfound : List.Forall₂ RecordField.Found fields found) : Tells fields json := by
  subst hjson
  exact ⟨found, hfound, .object rfl (by rw [List.append_nil]) (List.forall_mem_nil _)⟩

end Conform.Json
