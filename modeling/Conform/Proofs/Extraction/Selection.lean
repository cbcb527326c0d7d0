import Conform.Extraction
import Mathlib.Tactic.ByContra

/-!
Which methods become behaviours. A method offends against a dialect that does not know it and is
strict, or that knows it and finds an expression body (`Offends`). Extraction stops at the first
offending method and at no other, whatever stands around it; without one it comes to the behaviours
of those methods that hold code in a block, in order (`behavioursOf_eq`). The namespaces of a file
are looked at before its methods (`extraction_selects`).
-/

set_option autoImplicit false

namespace Conform.Extraction

open Source

/-! ### One method -/

/-- A method that no record can be made with. -/
def Offends (dialect : Dialect) (method : Method) : Prop :=
  (dialect.classify? method.identifier = none ∧ dialect.isStrict = true) ∨
    ((dialect.classify? method.identifier).isSome = true ∧ method.body = .expression)

instance (dialect : Dialect) : DecidablePred (Offends dialect) := fun _ ↦
  inferInstanceAs (Decidable (_ ∨ _))

/-- What is said against a method that offends: its name if the dialect does not know it, else its
name and its line. -/
def offence (dialect : Dialect) (method : Method) : Failure :=
  if (dialect.classify? method.identifier).isSome then
    .structural (.expressionBody method.identifier method.line)
  else .unsupported method.identifier

/-- The code of a block in the form of a dialect. -/
def blockCode (dialect : Dialect) (source : List Char) (block : Span)
    (statements : Option Span) : String :=
  String.ofList (if dialect.trimsExpression then Expression.trimmed (Text.slice block source)
    else Expression.laidOut source block statements)

/-- A behaviour that a method comes to: the dialect knows the method and tells the hook, and the
method has a block that holds code. -/
structure Holds (dialect : Dialect) (source : List Char) (method : Method)
    (behaviour : Behaviour) : Prop where
  known : dialect.classify? method.identifier = some (behaviour.hook, behaviour.target)
  code : ∃ block statements, method.body = .block block statements ∧
    behaviour.expression = blockCode dialect source block statements
  nonempty : behaviour.expression ≠ ""
  described : (behaviour.name, behaviour.description) = describe dialect method

/-- The behaviour that a method comes to, if it comes to one. -/
def held? (dialect : Dialect) (source : List Char) (method : Method) : Option Behaviour :=
  match dialect.classify? method.identifier, method.body with
  | some (hook, target), .block block statements =>
    let code := blockCode dialect source block statements
    if code = "" then none
    else some ⟨(describe dialect method).1, (describe dialect method).2, code, hook, target⟩
  | _, _ => none

section Method

variable {dialect : Dialect} {source : List Char} {method : Method}

theorem held?_eq_some_iff {behaviour : Behaviour} :
    held? dialect source method = some behaviour ↔ Holds dialect source method behaviour := by
  unfold held?
  constructor
  · intro hheld
    split at hheld
    case h_1 hook target block statements hknown hbody =>
      by_cases hempty : blockCode dialect source block statements = ""
      · simp [hempty] at hheld
      · simp only [if_neg hempty, Option.some.injEq] at hheld
        subst hheld
        exact ⟨hknown, ⟨block, statements, hbody, rfl⟩, hempty, rfl⟩
    case h_2 => cases hheld
  · rintro ⟨hknown, ⟨block, statements, hbody, hcode⟩, hnonempty, hdescribed⟩
    rw [hknown, hbody]
    simp only [← hcode, if_neg hnonempty, ← hdescribed]

theorem expression_of_block {block : Span} {statements : Option Span}
    (hbody : method.body = .block block statements) :
    expression dialect source method = .ok (blockCode dialect source block statements) := by
  rw [expression, hbody, blockCode]
  cases dialect.trimsExpression <;> rfl

/-- A method either offends or is read without a failure. -/
theorem behaviour?_eq (dialect : Dialect) (source : List Char) (method : Method) :
    behaviour? dialect source method =
      if Offends dialect method then .error (offence dialect method)
      else .ok (held? dialect source method) := by
  cases hknown : dialect.classify? method.identifier with
  | none =>
    have hoffends : Offends dialect method ↔ dialect.isStrict = true := by simp [Offends, hknown]
    simp only [behaviour?, hknown, hoffends, offence, held?, Option.isSome_none,
      Bool.false_eq_true, if_false]
  | some found =>
    obtain ⟨hook, target⟩ := found
    have hoffends : Offends dialect method ↔ method.body = .expression := by
      simp [Offends, hknown]
    simp only [behaviour?, hknown, hoffends, offence, held?, Option.isSome_some, if_true]
    cases hbody : method.body with
    | expression =>
      rw [expression, hbody]
      rfl
    | missing =>
      rw [expression, hbody]
      rfl
    | block block statements =>
      rw [expression_of_block hbody]
      by_cases hempty : blockCode dialect source block statements = ""
      · simp [hempty, bind, Except.bind, pure, Except.pure]
      · simp [hempty, bind, Except.bind, pure, Except.pure, String.isEmpty_iff]

end Method

/-! ### Methods in order -/

section Methods

variable {dialect : Dialect} {source : List Char}

theorem behavioursOf_eq (dialect : Dialect) (source : List Char) (methods : List Method) :
    behavioursOf dialect source methods =
      match methods.find? fun method ↦ Offends dialect method with
      | some method => .error (offence dialect method)
      | none => .ok (methods.filterMap (held? dialect source)) := by
  induction methods with
  | nil => rfl
  | cons method rest ih =>
    rw [behavioursOf, behaviour?_eq, ih]
    by_cases hoffends : Offends dialect method
    · rw [if_pos hoffends, List.find?_cons_of_pos (by simpa using hoffends)]
      rfl
    · rw [if_neg hoffends, List.find?_cons_of_neg (by simpa using hoffends)]
      cases rest.find? fun method ↦ Offends dialect method with
      | some other => rfl
      | none =>
        rw [List.filterMap_cons]
        cases held? dialect source method <;> rfl

theorem behavioursOf_of_first {front back : List Method} {method : Method}
    (hfront : ∀ other ∈ front, ¬ Offends dialect other) (hoffends : Offends dialect method) :
    behavioursOf dialect source (front ++ method :: back) = .error (offence dialect method) := by
  have hnone : front.find? (fun method ↦ Offends dialect method) = none := by
    simpa [List.find?_eq_none] using hfront
  rw [behavioursOf_eq, List.find?_append, hnone, Option.none_or,
    List.find?_cons_of_pos (by simpa using hoffends)]

theorem behavioursOf_of_forall {methods : List Method}
    (hmethods : ∀ method ∈ methods, ¬ Offends dialect method) :
    behavioursOf dialect source methods = .ok (methods.filterMap (held? dialect source)) := by
  have hnone : methods.find? (fun method ↦ Offends dialect method) = none := by
    simpa [List.find?_eq_none] using hmethods
  rw [behavioursOf_eq, hnone]

/-- Assumes: an extraction that succeeds. Each of its behaviours is that of one of the methods. -/
theorem exists_holds_of_mem {methods : List Method} {found : List Behaviour}
    (hfound : behavioursOf dialect source methods = .ok found) {behaviour : Behaviour}
    (hmem : behaviour ∈ found) : ∃ method ∈ methods, Holds dialect source method behaviour := by
  rw [behavioursOf_eq] at hfound
  split at hfound
  · cases hfound
  · rw [Except.ok.injEq] at hfound
    rw [← hfound, List.mem_filterMap] at hmem
    obtain ⟨method, hmethod, hheld⟩ := hmem
    exact ⟨method, hmethod, held?_eq_some_iff.mp hheld⟩

theorem behavioursOf_append (dialect : Dialect) (source : List Char)
    (first second : List Method) :
    behavioursOf dialect source (first ++ second) = do
      let found ← behavioursOf dialect source first
      let others ← behavioursOf dialect source second
      return found ++ others := by
  simp only [behavioursOf_eq, List.find?_append, List.filterMap_append]
  cases first.find? fun method ↦ Offends dialect method with
  | some method => rfl
  | none => cases second.find? fun method ↦ Offends dialect method <;> rfl

end Methods

/-- What extraction comes to on methods in order. -/
structure Selects (dialect : Dialect) (source : List Char) (methods : List Method)
    (result : Except Failure (List Behaviour)) : Prop where
  fails_iff : (∃ failure, result = .error failure) ↔ ∃ method ∈ methods, Offends dialect method
  /-- The first method that offends tells the failure, whatever stands before and behind it. -/
  first : ∀ front method back, methods = front ++ method :: back →
    (∀ other ∈ front, ¬ Offends dialect other) → Offends dialect method →
      result = .error (offence dialect method)
  /-- If none offends there is a behaviour for each method that holds code, and for no other. -/
  kept : (∀ method ∈ methods, ¬ Offends dialect method) →
    result = .ok (methods.filterMap (held? dialect source))

theorem selects_behavioursOf (dialect : Dialect) (source : List Char) (methods : List Method) :
    Selects dialect source methods (behavioursOf dialect source methods) where
  fails_iff := by
    constructor
    · rintro ⟨failure, hfailure⟩
      by_contra hnone
      rw [behavioursOf_of_forall fun method hmem hoffends ↦ hnone ⟨method, hmem, hoffends⟩]
        at hfailure
      cases hfailure
    · intro hexists
      obtain ⟨method, hfind⟩ : ∃ method,
          methods.find? (fun method ↦ Offends dialect method) = some method := by
        simpa [← Option.isSome_iff_exists] using hexists
      exact ⟨offence dialect method, by rw [behavioursOf_eq, hfind]⟩
  first := fun front method back hmethods hfront hoffends ↦
    hmethods ▸ behavioursOf_of_first hfront hoffends
  kept := behavioursOf_of_forall

/-! ### Files -/

theorem spaceName_eq_ok_iff {names : List String} {name : String} :
    spaceName names = .ok name ↔ names = [name] := by
  unfold spaceName
  split
  case h_1 other => simp
  case h_2 => simp
  case h_3 hmany _ =>
    refine iff_of_false (fun h ↦ nomatch h) ?_
    rintro rfl
    exact hmany name rfl

theorem entity_eq_ok_iff {dialect : Dialect} {source : String} {record : Entity} :
    entity dialect source = .ok record ↔
      (Structure.ofSource source.toList).spaceNames = [record.spaceName] ∧
        behaviours dialect source = .ok record.behaviours ∧
        record.imports = customImports (Structure.ofSource source.toList) := by
  obtain ⟨name, found, imports⟩ := record
  rw [entity, behaviours, ← spaceName_eq_ok_iff]
  cases spaceName (Structure.ofSource source.toList).spaceNames with
  | error failure => simp [bind, Except.bind]
  | ok other =>
    cases behavioursOf dialect source.toList (Structure.ofSource source.toList).methods with
    | error failure => simp [bind, Except.bind]
    | ok others => simp [bind, Except.bind, pure, Except.pure, eq_comm]

/-- A behaviour that is returned for a file, alone or in the record of an entity. -/
inductive Returns (dialect : Dialect) (source : String) (behaviour : Behaviour) : Prop where
  | behaviours {found : List Behaviour} (hfound : behaviours dialect source = .ok found)
      (hmem : behaviour ∈ found)
  | entity {record : Entity} (hrecord : entity dialect source = .ok record)
      (hmem : behaviour ∈ record.behaviours)

/-- A behaviour that is returned is that of a method of the file. -/
theorem Returns.exists_holds {dialect : Dialect} {source : String} {behaviour : Behaviour}
    (hreturns : Returns dialect source behaviour) :
    ∃ method ∈ (Structure.ofSource source.toList).methods,
      Holds dialect source.toList method behaviour := by
  cases hreturns with
  | behaviours hfound hmem => exact exists_holds_of_mem hfound hmem
  | entity hrecord hmem =>
    exact exists_holds_of_mem (entity_eq_ok_iff.mp hrecord).2.1 hmem

theorem application_eq_ok_iff {source : String} {record : Application} :
    application source = .ok record ↔
      (Structure.ofSource source.toList).spaceNames = [record.spaceName] ∧
        (∃ method ∈ (Structure.ofSource source.toList).methods.head?,
          (record.name, record.description) = describe .application method ∧
            expression .application source.toList method = .ok record.expression) ∧
        record.imports = customImports (Structure.ofSource source.toList) := by
  obtain ⟨space, name, description, code, imports⟩ := record
  rw [application, ← spaceName_eq_ok_iff]
  cases spaceName (Structure.ofSource source.toList).spaceNames with
  | error failure => simp [bind, Except.bind]
  | ok other =>
    cases (Structure.ofSource source.toList).methods with
    | nil => simp [bind, Except.bind, throw, throwThe, MonadExceptOf.throw]
    | cons method rest =>
      cases hcode : expression .application source.toList method with
      | error failure => simp [bind, Except.bind, hcode]
      | ok found =>
        simp only [bind, Except.bind, pure, Except.pure, hcode, Except.ok.injEq,
          Application.mk.injEq, List.head?_cons, Option.mem_some_iff, exists_eq_left', Prod.ext_iff]
        grind

/-- In every dialect: extraction fails just if a method offends, with the failure of the first one,
and else keeps just the behaviours of the methods that hold code, in order; so the methods of two
lists one after the other come to what each list comes to. An entity is read from the same methods
in the same way, once the file is known to have one namespace; a file with none or with several,
those inside others counted, is refused for that, whatever its methods are. -/
theorem extraction_selects (dialect : Dialect) :
    (∀ source methods, Selects dialect source methods (behavioursOf dialect source methods)) ∧
    (∀ source first second, behavioursOf dialect source (first ++ second) = do
      let found ← behavioursOf dialect source first
      let others ← behavioursOf dialect source second
      return found ++ others) ∧
    ∀ source : String, let found := Structure.ofSource source.toList
      behaviours dialect source = behavioursOf dialect source.toList found.methods ∧
      (found.spaceNames = [] → entity dialect source = .error (.structural .noNamespace)) ∧
      (2 ≤ found.spaceNames.length → entity dialect source =
        .error (.structural (.manyNamespaces found.spaceNames.length))) ∧
      ∀ name, found.spaceNames = [name] → entity dialect source =
        (behaviours dialect source).map fun behaviours ↦
          ⟨name, behaviours, customImports found⟩ := by
  refine ⟨selects_behavioursOf dialect, behavioursOf_append dialect, fun source ↦
    ⟨rfl, fun hnames ↦ ?_, fun hnames ↦ ?_, fun name hnames ↦ ?_⟩⟩
  · rw [entity, hnames]
    rfl
  · obtain ⟨first, second, rest, hsplit⟩ :
        ∃ first second rest, (Structure.ofSource source.toList).spaceNames =
          first :: second :: rest := by
      match hlist : (Structure.ofSource source.toList).spaceNames, hnames with
      | first :: second :: rest, _ => exact ⟨first, second, rest, rfl⟩
    rw [entity, hsplit]
    rfl
  · rw [entity, behaviours, hnames]
    cases behavioursOf dialect source.toList (Structure.ofSource source.toList).methods <;> rfl

/-- A file with a helper, a bodiless method, one with a block and two with expression bodies. -/
def mixedSource : String :=
  "namespace A \x7b class C \x7b int Help() => 1; int GetX(); int GetY() \x7b return 1; \x7d\n" ++
    "int GetZ() => 2; int GetW() => 3; \x7d \x7d"

def nestedSource : String :=
  "namespace A \x7b namespace B \x7b class C \x7b int Make() => 1; \x7d \x7d \x7d"

/-- The first method that offends is neither the first nor the last of the file. In a file with one
namespace in another the namespaces are told, though a method offends. -/
theorem extraction_selects_mixed :
    entity .entity mixedSource = .error (.structural (.expressionBody "GetZ" 2)) ∧
      behaviours .dataAccess nestedSource = .error (.unsupported "Make") ∧
      entity .dataAccess nestedSource = .error (.structural (.manyNamespaces 2)) := by
  obtain ⟨hselects, -, hfiles⟩ := extraction_selects .entity
  obtain ⟨hnested, -, hfiles'⟩ := extraction_selects .dataAccess
  refine ⟨?_, ?_, ?_⟩
  · have hfirst := (hselects mixedSource.toList (Structure.ofSource mixedSource.toList).methods).first
      [⟨"Help", 1, .expression, []⟩, ⟨"GetX", 1, .missing, []⟩,
        ⟨"GetY", 1, .block ⟨64, 77⟩ (some ⟨66, 75⟩), []⟩]
      ⟨"GetZ", 2, .expression, []⟩ [⟨"GetW", 2, .expression, []⟩]
      (by decide +kernel) (by decide +kernel) (by decide +kernel)
    rw [(hfiles mixedSource).2.2.2 "A" (by decide +kernel), (hfiles mixedSource).1, hfirst]
    rfl
  · rw [(hfiles' nestedSource).1]
    exact (hnested nestedSource.toList _).first [] ⟨"Make", 1, .expression, []⟩ []
      (by decide +kernel) (by decide +kernel) (by decide +kernel)
  · have hnames : (Structure.ofSource nestedSource.toList).spaceNames = ["A", "B"] := by
      decide +kernel
    rw [(hfiles' nestedSource).2.2.1 (by rw [hnames]; decide), hnames]
    rfl

end Conform.Extraction
