import Conform.Extraction
import Conform.Proofs.Rendering.Body
import Conform.Proofs.Rendering.Documentation
import Conform.Proofs.Rendering.Outline

/-!
What is extracted from generated files. The behaviour of a method is told by the method itself: its
identifier says the hook and the target, its documentation the name and the description, and its
code is the lines of its body up to the last statement. Reading a file gives back the behaviours of
its methods (`entity_chars`), so generating a file and extracting from it loses nothing.
-/

set_option autoImplicit false

namespace Conform.Rendering

open Source

/-- The behaviour of a method, if its identifier tells a hook and its body holds a statement. -/
def Method.behaviour? (method : Method) : Option Behaviour :=
  (Dialect.entity.classify? method.identifier.text).bind fun (hook, target) ↦
    if method.body.all Line.isComment then none
    else some ⟨method.name, method.description,
      String.ofList ((codeLines method.body).flatMap Line.chars), hook, target⟩

section Found

variable {source before behind : List Char} {place : Place}

theorem expression_foundAt {method : Method}
    (hsource : source = before ++ (method.writtenChars ++ behind))
    (hplace : place.byte = Text.bytes before) :
    Extraction.expression .entity source (method.foundAt place) =
      .ok (String.ofList ((codeLines method.body).flatMap Line.chars)) := by
  have hbody : source = (before ++ (method.commentChars ++ method.headChars)) ++
      '\x7b' :: ((bodyRow method.body).chars ++ '\x7d' :: behind) := by
    rw [hsource, Method.writtenChars]
    simp
  have hopening : ((place.after method.commentChars).after method.headChars).byte =
      Text.bytes (before ++ (method.commentChars ++ method.headChars)) := by
    rw [← Place.after_append, Place.after, hplace, ← Text.bytes_append]
  have hinside : (((place.after method.commentChars).after method.headChars).after ['\x7b']).byte =
      Text.bytes (before ++ (method.commentChars ++ method.headChars)) + 1 := by
    rw [← hopening]
    rfl
  have hcode := laidOut_body method.body _ hbody hinside
  rw [← hopening] at hcode
  exact congrArg (fun code ↦ Except.ok (String.ofList code)) hcode

theorem codeLines_eq_nil_iff (body : List Line) :
    codeLines body = [] ↔ body.all Line.isComment = true := by
  rw [codeLines, List.rdropWhile_eq_nil_iff, List.all_eq_true]

/-- The code of a body is empty if the body holds no statement. -/
theorem isEmpty_code (body : List Line) :
    (String.ofList ((codeLines body).flatMap Line.chars)).isEmpty = body.all Line.isComment := by
  rw [Bool.eq_iff_iff, ← codeLines_eq_nil_iff, String.isEmpty_iff, String.ofList_eq_empty_iff,
    List.flatMap_eq_nil_iff, List.eq_nil_iff_forall_not_mem]
  exact forall₂_congr fun line _ ↦ iff_false_intro (by simp [Line.chars])

theorem describe_foundAt (method : Method) (place : Place) :
    Extraction.describe .entity (method.foundAt place) = (method.name, method.description) := by
  have hsummary := ofComments_comments method
  rw [Extraction.describe, Method.foundAt]
  dsimp only
  rw [hsummary]
  rfl

/-- What is extracted from a method where it is written. -/
theorem behaviour?_foundAt {method : Method}
    (hsource : source = before ++ (method.writtenChars ++ behind))
    (hplace : place.byte = Text.bytes before) :
    Extraction.behaviour? .entity source (method.foundAt place) = .ok method.behaviour? := by
  have hidentifier : (method.foundAt place).identifier = method.identifier.text := rfl
  rw [Extraction.behaviour?, Method.behaviour?, hidentifier]
  cases Dialect.entity.classify? method.identifier.text with
  | none => rfl
  | some found =>
    obtain ⟨hook, target⟩ := found
    dsimp only [Option.bind_some]
    rw [expression_foundAt hsource hplace, describe_foundAt, ← isEmpty_code]
    simp only [bind, Except.bind, pure, Except.pure]
    split <;> rfl

/-- What is extracted from methods where they are written. -/
theorem behavioursOf_foundAt {methods : List Method} {gap : List Char}
    (hsource : source = before ++ ((methodsRow gap methods).chars ++ behind))
    (hplace : place.byte = Text.bytes before) :
    Extraction.behavioursOf .entity source (foundAt gap place methods) =
      .ok (methods.filterMap Method.behaviour?) := by
  -- What is in front of the methods grows by one method at each step, and the place with it.
  induction methods generalizing before gap place with
  | nil => rfl
  | cons method rest ih =>
    rw [methodsRow, chars_put, Method.chars_row] at hsource
    have hmethod : source = (before ++ (gap ++ "\t\t".toList)) ++
        (method.writtenChars ++ ((methodsRow "\n\n".toList rest).chars ++ behind)) := by
      simpa only [List.append_assoc] using hsource
    have hrest : source = (before ++ (gap ++ "\t\t".toList) ++ method.writtenChars) ++
        ((methodsRow "\n\n".toList rest).chars ++ behind) := by
      simpa only [List.append_assoc] using hsource
    have hstart : (place.after (gap ++ "\t\t".toList)).byte =
        Text.bytes (before ++ (gap ++ "\t\t".toList)) := by
      rw [Place.after, hplace, ← Text.bytes_append]
    have hstop : ((place.after (gap ++ "\t\t".toList)).after method.writtenChars).byte =
        Text.bytes (before ++ (gap ++ "\t\t".toList) ++ method.writtenChars) := by
      rw [Place.after, hstart, ← Text.bytes_append]
    rw [foundAt, Extraction.behavioursOf, behaviour?_foundAt hmethod hstart, ih hrest hstop]
    cases hbehaviour : method.behaviour? <;> simp [hbehaviour] <;> rfl

end Found

/-- The methods of a file stand between the braces of its class. -/
theorem File.chars_eq (file : File) :
    file.chars = file.frontChars ++
      ((methodsRow "\n".toList file.methods).chars ++ "\x7d\n\x7d\n".toList) := by
  rw [chars_methodsRow]
  unfold File.chars File.frontChars File.classChars
  simp

/-- Extracting from a generated file gives back its namespace and the behaviours of its methods. -/
theorem entity_chars (file : File) :
    Extraction.entity .entity (String.ofList file.chars) =
      .ok ⟨file.spaceText, file.methods.filterMap Method.behaviour?, []⟩ := by
  obtain ⟨hnames, himports, hmethods⟩ := file.structure_eq
  have hstart : (Place.after {} file.frontChars).byte = Text.bytes file.frontChars := Nat.zero_add _
  have hbehaviours := behavioursOf_foundAt file.chars_eq hstart
  rw [Extraction.entity, String.toList_ofList, hnames, hmethods, Extraction.customImports, himports,
    hbehaviours]
  rfl

/-- A brace in a literal closes nothing, and a comment behind the last statement is no code. -/
example :
    let indent : Indent := ⟨"\t\t\t".toList, by decide, by decide⟩
    let method : Method := {
      identifier := ⟨"GetAge".toList, by decide, by decide⟩
      docs := [⟨"Age".toList, by decide, by decide, by decide, by decide⟩]
      body := [
        .statement indent
          (.assign ⟨"x".toList, by decide, by decide⟩ "\x7d; // \\\"".toList (by decide)),
        .comment indent ⟨" \x7b".toList, by decide⟩] }
    method.behaviour? =
      some ⟨"Age", "", "\t\t\tx = \"\x7d; // \\\"\";\n", .formula, some "age"⟩ := by
  decide

end Conform.Rendering
