import Conform.Behaviour
import Conform.Import
import Conform.Patch.Basic
import Conform.Proofs.Json.Record
import Conform.Refusal
import Conform.StateMachine

/-!
Records read back. For each kind of record its fields are listed, with what tells them and what they
are when left out; a form is read as a record exactly if it tells that record, and what a record is
written as tells it (`records_readBack`). So a record survives any order of its members, members of
unknown names, defaults left out and the array form, at every depth, and reading what has been
written of a record that was read gives this record again.
-/

set_option autoImplicit false

namespace Conform

open Json

/-! ### Records by their fields -/

section Fields

variable {α : Type} [Form α]

def Transition.fields (transition : Transition) : List (RecordField α) :=
  [.required "name" (IsText transition.name),
    .optional "expression" "" transition.expression IsText]

def State.fields (state : State) : List (RecordField α) :=
  [.required "name" (IsText state.name),
    .optional "assignToExpression" "" state.assignTo IsText,
    .optional "behaviours" [] state.behaviours (IsList IsText),
    .optional "transitions" [] state.transitions
      (IsList fun transition ↦ Tells transition.fields)]

def Behaviour.fields (behaviour : Behaviour) : List (RecordField α) :=
  [.required "name" (IsText behaviour.name),
    .required "description" (IsText behaviour.description),
    .required "expression" (IsText behaviour.expression),
    .required "type" (IsChoice behaviour.hook.name),
    .optional "attribute" none behaviour.target IsOptionalText]

def Import.fields (entry : Import) : List (RecordField α) :=
  [.required "name" (IsText entry.name),
    .required "executionLocation" (IsText entry.location),
    .required "fullyQualifiedName" (IsText entry.target)]

def Patch.Operation.fields (operation : Operation) : List (RecordField α) :=
  [.required "op" (IsChoice operation.kind.name),
    .required "path" (IsText operation.path),
    .required "value" (IsValue operation.value)]

def FieldFault.fields (fault : FieldFault) : List (RecordField α) :=
  [.optional "name" "" fault.name IsText,
    .optional "message" "" fault.message IsText]

def Refusal.fields (refusal : Refusal) : List (RecordField α) :=
  [.optional "code" "" refusal.code IsText,
    .optional "message" "" refusal.message IsText,
    .optional "errors" [] refusal.errors (IsList fun fault ↦ Tells fault.fields)]

end Fields

/-! ### Reading -/

theorem Hook.ofName?_eq_some_iff (text : String) (hook : Hook) :
    ofName? text = some hook ↔ text = hook.name := by
  constructor
  · intro hhook
    have hname : hook.name = text := by simpa using List.find?_some hhook
    exact hname.symm
  · rintro rfl
    cases hook <;> rfl

theorem Patch.Kind.ofName?_eq_some_iff (text : String) (kind : Kind) :
    ofName? text = some kind ↔ text = kind.name := by
  constructor
  · intro hkind
    have hname : kind.name = text := by simpa using List.find?_some hkind
    exact hname.symm
  · rintro rfl
    cases kind <;> rfl

section Reading

variable {α : Type} [Form α]

theorem Transition.decode?_eq_some_iff (form : α) (transition : Transition) :
    decode? form = some transition ↔ Tells transition.fields form := by
  refine bind_fields?_eq_some_iff (by decide) rfl fun found ↦ ?_
  obtain ⟨ownName, ownExpression⟩ := transition
  rcases found with _ | ⟨name, _ | ⟨expression, _ | ⟨_, _⟩⟩⟩
  case cons.cons.nil =>
    simp only [Option.pure_def, Option.bind_eq_bind, Option.bind_eq_some_iff, Option.some.injEq,
      mk.injEq, exists_eq_right_right, fields, List.forall₂_cons, List.forall₂_nil_right_iff,
      and_true]
    exact and_congr (required?_eq_some_iff string?_eq_some_iff)
      (orElse?_eq_some_iff string?_eq_some_iff)
  all_goals simp [fields]

theorem State.decode?_eq_some_iff (form : α) (state : State) :
    decode? form = some state ↔ Tells state.fields form := by
  refine bind_fields?_eq_some_iff (by decide) rfl fun found ↦ ?_
  obtain ⟨ownName, ownAssign, ownBehaviours, ownTransitions⟩ := state
  rcases found with _ | ⟨name, _ | ⟨assignTo, _ | ⟨behaviours, _ | ⟨transitions, _ | ⟨_, _⟩⟩⟩⟩⟩
  case cons.cons.cons.cons.nil =>
    simp only [Option.pure_def, Option.bind_eq_bind, Option.bind_eq_some_iff, Option.some.injEq,
      mk.injEq, ↓existsAndEq, and_true, fields, List.forall₂_cons, List.forall₂_nil_right_iff]
    refine and_congr (required?_eq_some_iff string?_eq_some_iff) <|
      and_congr (orElse?_eq_some_iff string?_eq_some_iff) <| and_congr ?_ ?_
    · exact orElse?_eq_some_iff (list?_eq_some_iff string?_eq_some_iff)
    · exact orElse?_eq_some_iff (list?_eq_some_iff Transition.decode?_eq_some_iff)
  all_goals simp [fields]

theorem Behaviour.decode?_eq_some_iff (form : α) (behaviour : Behaviour) :
    decode? form = some behaviour ↔ Tells behaviour.fields form := by
  refine bind_fields?_eq_some_iff (by decide) rfl fun found ↦ ?_
  obtain ⟨ownName, ownDescription, ownExpression, ownHook, ownTarget⟩ := behaviour
  rcases found with _ | ⟨name, _ | ⟨description, _ | ⟨expression, _ | ⟨hook, _ | ⟨target,
    _ | ⟨_, _⟩⟩⟩⟩⟩⟩
  case cons.cons.cons.cons.cons.nil =>
    simp only [Option.pure_def, Option.bind_eq_bind, Option.bind_eq_some_iff, Option.some.injEq,
      mk.injEq, ↓existsAndEq, and_true, fields, List.forall₂_cons, List.forall₂_nil_right_iff]
    refine and_congr (required?_eq_some_iff string?_eq_some_iff) <|
      and_congr (required?_eq_some_iff string?_eq_some_iff) <|
      and_congr (required?_eq_some_iff string?_eq_some_iff) <| and_congr ?_ ?_
    · exact required?_eq_some_iff (choice?_eq_some_iff Hook.ofName?_eq_some_iff)
    · exact orElse?_eq_some_iff option?_eq_some_iff
  all_goals simp [fields]

theorem Import.decode?_eq_some_iff (form : α) (entry : Import) :
    decode? form = some entry ↔ Tells entry.fields form := by
  refine bind_fields?_eq_some_iff (by decide) rfl fun found ↦ ?_
  obtain ⟨ownName, ownLocation, ownTarget⟩ := entry
  rcases found with _ | ⟨name, _ | ⟨location, _ | ⟨target, _ | ⟨_, _⟩⟩⟩⟩
  case cons.cons.cons.nil =>
    simp only [Option.pure_def, Option.bind_eq_bind, Option.bind_eq_some_iff, Option.some.injEq,
      mk.injEq, ↓existsAndEq, and_true, fields, List.forall₂_cons, List.forall₂_nil_right_iff]
    exact and_congr (required?_eq_some_iff string?_eq_some_iff) <|
      and_congr (required?_eq_some_iff string?_eq_some_iff)
        (required?_eq_some_iff string?_eq_some_iff)
  all_goals simp [fields]

theorem Patch.Operation.decode?_eq_some_iff (form : α) (operation : Operation) :
    decode? form = some operation ↔ Tells operation.fields form := by
  refine bind_fields?_eq_some_iff (by decide) rfl fun found ↦ ?_
  obtain ⟨ownKind, ownPath, ownValue⟩ := operation
  rcases found with _ | ⟨kind, _ | ⟨path, _ | ⟨value, _ | ⟨_, _⟩⟩⟩⟩
  case cons.cons.cons.nil =>
    simp only [Option.pure_def, Option.bind_eq_bind, Option.bind_eq_some_iff, Option.some.injEq,
      mk.injEq, ↓existsAndEq, and_true, fields, List.forall₂_cons, List.forall₂_nil_right_iff]
    refine and_congr ?_ <| and_congr (required?_eq_some_iff string?_eq_some_iff) ?_
    · exact required?_eq_some_iff (choice?_eq_some_iff Kind.ofName?_eq_some_iff)
    · exact required?_eq_some_iff fun _ _ ↦ Iff.rfl
  all_goals simp [fields]

theorem FieldFault.decode?_eq_some_iff (form : α) (fault : FieldFault) :
    decode? form = some fault ↔ Tells fault.fields form := by
  refine bind_fields?_eq_some_iff (by decide) rfl fun found ↦ ?_
  obtain ⟨ownName, ownMessage⟩ := fault
  rcases found with _ | ⟨name, _ | ⟨message, _ | ⟨_, _⟩⟩⟩
  case cons.cons.nil =>
    simp only [Option.pure_def, Option.bind_eq_bind, Option.bind_eq_some_iff, Option.some.injEq,
      mk.injEq, exists_eq_right_right, fields, List.forall₂_cons, List.forall₂_nil_right_iff,
      and_true]
    exact and_congr (orElse?_eq_some_iff string?_eq_some_iff)
      (orElse?_eq_some_iff string?_eq_some_iff)
  all_goals simp [fields]

theorem Refusal.decode?_eq_some_iff (form : α) (refusal : Refusal) :
    decode? form = some refusal ↔ Tells refusal.fields form := by
  refine bind_fields?_eq_some_iff (by decide) rfl fun found ↦ ?_
  obtain ⟨ownCode, ownMessage, ownErrors⟩ := refusal
  rcases found with _ | ⟨code, _ | ⟨message, _ | ⟨errors, _ | ⟨_, _⟩⟩⟩⟩
  case cons.cons.cons.nil =>
    simp only [Option.pure_def, Option.bind_eq_bind, Option.bind_eq_some_iff, Option.some.injEq,
      mk.injEq, ↓existsAndEq, and_true, fields, List.forall₂_cons, List.forall₂_nil_right_iff]
    refine and_congr (orElse?_eq_some_iff string?_eq_some_iff) <|
      and_congr (orElse?_eq_some_iff string?_eq_some_iff) ?_
    exact orElse?_eq_some_iff (list?_eq_some_iff FieldFault.decode?_eq_some_iff)
  all_goals simp [fields]

theorem Patch.decode?_eq_some_iff (form : α) (changes : Patch) :
    decode? form = some changes ↔ IsList (fun operation ↦ Tells operation.fields) changes form :=
  list?_eq_some_iff Operation.decode?_eq_some_iff form changes

end Reading

/-! ### Writing -/

theorem Transition.tells_toJson (transition : Transition) :
    Tells transition.fields transition.toJson := by
  refine tells_object [some (.string transition.name), some (.string transition.expression)] rfl ?_
  simp [fields]

theorem State.tells_toJson (state : State) : Tells state.fields state.toJson := by
  refine tells_object [some (.string state.name), some (.string state.assignTo),
    some (.ofStrings state.behaviours),
    some (.array (state.transitions.map Transition.toJson))] rfl ?_
  have hbehaviours : IsList IsText state.behaviours (Json.ofStrings state.behaviours) :=
    isList_map isText_string state.behaviours
  have htransitions := isList_map Transition.tells_toJson state.transitions
  simp [fields, hbehaviours, htransitions]

theorem Behaviour.tells_toJson (behaviour : Behaviour) :
    Tells behaviour.fields behaviour.toJson := by
  obtain ⟨name, description, expression, hook, target⟩ := behaviour
  refine tells_object [some (.string name), some (.string description), some (.string expression),
    some hook.toJson, target.map .string] ?_ ?_
  · cases target <;> rfl
  · cases target <;> simp [fields, Hook.toJson, IsOptionalText]

theorem Import.tells_toJson (entry : Import) : Tells entry.fields entry.toJson := by
  refine tells_object [some (.string entry.name), some (.string entry.location),
    some (.string entry.target)] rfl ?_
  simp [fields]

theorem Patch.Operation.tells_toJson (operation : Operation) :
    Tells operation.fields operation.toJson := by
  refine tells_object [some (.string operation.kind.name), some (.string operation.path),
    some operation.value] rfl ?_
  simp [fields]

theorem Patch.tells_toJson (changes : Patch) :
    IsList (fun operation ↦ Tells operation.fields) changes changes.toJson :=
  isList_map Operation.tells_toJson changes

theorem FieldFault.tells_toJson (fault : FieldFault) : Tells fault.fields fault.toJson := by
  refine tells_object [some (.string fault.name), some (.string fault.message)] rfl ?_
  simp [fields]

theorem Refusal.tells_toJson (refusal : Refusal) : Tells refusal.fields refusal.toJson := by
  refine tells_object [some (.string refusal.code), some (.string refusal.message),
    some (.array (refusal.errors.map FieldFault.toJson))] rfl ?_
  simp [fields, isList_map FieldFault.tells_toJson]

/-! ### Reading what has been written -/

/-- Records that are read from the forms that tell them and from no other, and are written in such a
form. -/
structure ReadBack {β : Type} (encode : β → Json)
    (decode : ∀ {α : Type} [Form α], α → Option β)
    (tells : ∀ {α : Type} [Form α], β → α → Prop) : Prop where
  decode_encode : ∀ record, decode (encode record) = some record
  decode_iff : ∀ {α : Type} [Form α] (form : α) (record : β),
    decode form = some record ↔ tells record form
  tells_encode : ∀ record, tells record (encode record)
  /-- What is written of a record that was read is read and written as itself. -/
  idempotent : ∀ {α : Type} [Form α] (form : α) (written : Json),
    (decode form).map encode = some written → (decode written).map encode = some written

theorem ReadBack.of_tells {β : Type} {encode : β → Json}
    {decode : ∀ {α : Type} [Form α], α → Option β} {tells : ∀ {α : Type} [Form α], β → α → Prop}
    (hdecode : ∀ {α : Type} [Form α] (form : α) (record : β),
      decode form = some record ↔ tells record form)
    (hencode : ∀ record, tells record (encode record)) : ReadBack encode decode tells where
  decode_encode record := (hdecode _ record).mpr (hencode record)
  decode_iff := hdecode
  tells_encode := hencode
  idempotent := by
    intro α _ form written hwritten
    obtain ⟨record, -, rfl⟩ := Option.map_eq_some_iff.mp hwritten
    rw [(hdecode _ record).mpr (hencode record), Option.map_some]

/-- Records of every kind are read from an object with their fields in any order, members of unknown
names among them and defaults left out, and from an array of their fields, with the records inside
them in any of these forms; and they are read back from what they are written as. -/
theorem records_readBack :
    ReadBack State.toJson State.decode? (fun state ↦ Tells state.fields) ∧
    ReadBack Transition.toJson Transition.decode? (fun transition ↦ Tells transition.fields) ∧
    ReadBack Behaviour.toJson Behaviour.decode? (fun behaviour ↦ Tells behaviour.fields) ∧
    ReadBack Import.toJson Import.decode? (fun entry ↦ Tells entry.fields) ∧
    ReadBack Patch.Operation.toJson Patch.Operation.decode?
      (fun operation ↦ Tells operation.fields) ∧
    ReadBack Patch.toJson Patch.decode? (IsList fun operation ↦ Tells operation.fields) ∧
    ReadBack FieldFault.toJson FieldFault.decode? (fun fault ↦ Tells fault.fields) ∧
    ReadBack Refusal.toJson Refusal.decode? (fun refusal ↦ Tells refusal.fields) :=
  ⟨.of_tells State.decode?_eq_some_iff State.tells_toJson,
    .of_tells Transition.decode?_eq_some_iff Transition.tells_toJson,
    .of_tells Behaviour.decode?_eq_some_iff Behaviour.tells_toJson,
    .of_tells Import.decode?_eq_some_iff Import.tells_toJson,
    .of_tells Patch.Operation.decode?_eq_some_iff Patch.Operation.tells_toJson,
    .of_tells Patch.decode?_eq_some_iff Patch.tells_toJson,
    .of_tells FieldFault.decode?_eq_some_iff FieldFault.tells_toJson,
    .of_tells Refusal.decode?_eq_some_iff Refusal.tells_toJson⟩

/-- Members in another order with an unknown one among them, a transition in the array form, and a
default left out. -/
example : State.decode? (Json.object [
    ("transitions", .array [.array [.string "close"]]),
    ("colour", .null),
    ("name", .string "Draft"),
    ("behaviours", .array [])]) = some ⟨"Draft", "", [], [⟨"close", ""⟩]⟩ :=
  rfl

end Conform
