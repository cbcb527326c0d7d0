import Conform.Proofs.Source.Boundary
import Conform.Proofs.Source.Isolation
import Conform.Proofs.Source.Pairing

/-!
The order of declarations. A declaration starts with the first token of its header; these tokens are
some of the tokens that are read, in their order (`Outline.leads_read_sublist`). A method is at the
line of such a token (`Outline.lines_sublist`), so the lines of the methods of a source do not
decrease (`Structure.pairwise_line`).
-/

set_option autoImplicit false

namespace Conform.Source

/-! ### The rows of tokens -/

namespace Token

theorem row_le_of_mem_place {place : Place} {lexemes : List Lexeme} {token : Token}
    (htoken : token ∈ Token.place place.byte place.row lexemes) : place.row ≤ token.row := by
  obtain ⟨front, lexeme, back, -, rfl⟩ := mem_place htoken
  exact Nat.le_add_right _ _

theorem pairwise_row_place (place : Place) (lexemes : List Lexeme) :
    (Token.place place.byte place.row lexemes).Pairwise fun first second ↦
      first.row ≤ second.row := by
  induction lexemes generalizing place with
  | nil => exact .nil
  | cons lexeme rest ih =>
    refine .cons (fun token htoken ↦ ?_) (ih (place.after lexeme.chars))
    have hafter := @row_le_of_mem_place (place.after lexeme.chars) rest token htoken
    exact Nat.le_trans (Nat.le_add_right _ _) hafter

theorem pairwise_row_ofSource (source : List Char) :
    (ofSource source).Pairwise fun first second ↦ first.row ≤ second.row :=
  pairwise_row_place {} (Lexeme.ofChars source)

end Token

/-! ### The first tokens of declarations -/

/-- The token that a declaration starts with. -/
def Header.lead? (header : Header) : Option Token :=
  header.head?.bind (·.tokens.head?)

theorem Header.exists_lead? {header : Header} (hheader : header ≠ []) :
    ∃ token, lead? header = some token ∧ row header = token.row := by
  cases header with
  | nil => contradiction
  | cons piece rest =>
    cases piece with
    | token single => exact ⟨single, rfl, rfl⟩
    | group opening inner closing => exact ⟨opening, rfl, rfl⟩

theorem Header.lead?_append {header : Header} (hheader : header ≠ []) (others : List Piece) :
    lead? (header ++ others) = lead? header := by
  cases header with
  | nil => contradiction
  | cons piece rest => rfl

/-- The first token of a declaration under construction. -/
def Draft.lead (draft : Draft) : List Token :=
  (Header.lead? draft.reversed.reverse).toList

/-- The first tokens of all declarations. -/
def Outline.leads : Outline → List Token
  | empty => []
  | comment _ rest => rest.leads
  | directive _ rest => rest.leads
  | declaration header _ members rest =>
    (Header.lead? header).toList ++ members.leads ++ rest.leads

/-- A part that is put behind a draft starts it if nothing else does. -/
theorem Draft.lead_add_sublist (draft : Draft) (piece : Piece) :
    (draft.add piece).lead.Sublist (draft.lead ++ piece.tokens) := by
  have hkept : draft.lead.Sublist (draft.lead ++ piece.tokens) := List.sublist_append_left _ _
  have hadded : (Header.lead? (draft.reversed.reverse ++ [piece])).toList.Sublist
      (draft.lead ++ piece.tokens) := by
    cases hreversed : draft.reversed with
    | nil =>
      refine .trans ?_ (List.sublist_append_right _ _)
      cases piece <;> simp [Header.lead?, Piece.tokens]
    | cons first others =>
      have hlead : Header.lead? ((first :: others).reverse ++ [piece]) =
          Header.lead? draft.reversed.reverse := by
        rw [Header.lead?_append (by simp), hreversed]
      rw [hlead]
      exact hkept
  unfold Draft.add
  split
  · exact hkept
  · split_ifs
    · exact hkept
    · exact hkept
    · exact hkept
    · rw [Draft.lead, List.reverse_cons]
      exact hadded

namespace Outline

section Steps

variable {draft : Draft} {rest : Outline} {tokens : List Token}

theorem leads_close (draft : Draft) (rest : Outline) :
    (draft.close rest).leads = draft.lead ++ rest.leads := by
  unfold Draft.close
  split
  · rename_i hempty
    have hreversed : draft.reversed = [] := by
      simp only [Draft.isEmpty, Bool.and_eq_true] at hempty
      exact List.isEmpty_iff.mp hempty.1
    simp [Draft.lead, hreversed, Header.lead?]
  · rw [Draft.declare, leads, leads, List.append_nil]
    rfl

/-- The declaration that a semicolon is missing behind starts in front of what follows it. -/
theorem leads_finish_sublist {isCut : Bool}
    (hrest : rest.leads.Sublist ((if isCut then ({} : Draft) else draft).lead ++ tokens)) :
    ((if isCut then draft.close else id) rest).leads.Sublist (draft.lead ++ tokens) := by
  cases isCut with
  | true =>
    rw [if_pos rfl, leads_close]
    exact hrest.append_left draft.lead
  | false => exact hrest

end Steps

/-- Declarations start with tokens that are read, one behind the other. -/
theorem leads_read_sublist (course : Course) (draft : Draft) (forest : Forest) :
    (read course draft forest).leads.Sublist (draft.lead ++ forest.tokens) := by
  induction forest generalizing course draft with
  | empty =>
    rw [read, leads_close]
    exact .refl _
  | leaf token rest ih =>
    simp only [read]
    generalize course.step (Sign.ofToken token rest) rest = step
    have hadded : ∀ kept : Draft, (kept.add (.token token)).lead.Sublist (kept.lead ++ [token]) :=
      fun kept ↦ kept.lead_add_sublist (.token token)
    -- A comment, a directive and what belongs to no declaration start nothing.
    have hskipped : ∀ kept, (read step.course kept rest).leads.Sublist
        (kept.lead ++ (Forest.leaf token rest).tokens) := fun kept ↦
      (ih step.course kept).trans ((List.sublist_cons_self token _).append_left kept.lead)
    split
    · split
      · refine leads_finish_sublist ?_
        have hrest := (hadded (if step.isCut then {} else draft)).append (ih step.course {})
        simpa [Draft.declare, leads, Draft.lead, Header.lead?, Forest.tokens] using hrest
      · refine leads_finish_sublist ((ih step.course _).trans ?_)
        have hrest := (hadded (if step.isCut then {} else draft)).append_right rest.tokens
        simpa [Forest.tokens] using hrest
    · split
      · exact leads_finish_sublist (hskipped _)
      · exact leads_finish_sublist (hskipped _)
      · exact leads_finish_sublist (hskipped _)
  | group opening inner closing rest ihInner ihRest =>
    simp only [read]
    generalize course.step (Sign.ofGroup opening inner) rest = step
    have hinner : inner.tokens.Sublist (opening :: inner.tokens ++ closing.toList) :=
      (List.sublist_cons_self _ _).trans (List.sublist_append_left _ _)
    split
    · refine leads_finish_sublist ?_
      generalize (if step.isCut then ({} : Draft) else draft) = kept
      have hmembers : (if step.inside = .members && !kept.isMethod then
          read { content := .members } {} inner else empty).leads.Sublist
            (opening :: inner.tokens ++ closing.toList) := by
        split
        · exact (ihInner _ {}).trans hinner
        · exact List.nil_sublist _
      rw [Draft.declare, leads, Forest.tokens, List.append_assoc]
      exact (hmembers.append (ihRest step.course {})).append_left kept.lead
    · refine leads_finish_sublist ((ihRest step.course _).trans ?_)
      have hadded := Draft.lead_add_sublist (if step.isCut then {} else draft)
        (.group opening inner.tokens closing)
      rw [Forest.tokens, ← List.append_assoc]
      exact hadded.append_right rest.tokens

/-- Methods are at the lines that declarations start at. -/
theorem lines_sublist (outline : Outline) (inType : Bool) (docs : List String) :
    ((outline.methods inType docs).map Method.line).Sublist
      (outline.leads.map fun token ↦ token.row + 1) := by
  induction outline generalizing inType docs with
  | empty => exact .refl _
  | comment token rest ih => exact ih _ _
  | directive token rest ih => exact ih _ _
  | declaration header ending members rest ihMembers ihRest =>
    have hown : (if inType then (Method.ofDeclaration? docs header ending).toList else []).map
        Method.line |>.Sublist ((Header.lead? header).toList.map fun token ↦ token.row + 1) := by
      split
      · cases hmethod : Method.ofDeclaration? docs header ending with
        | none => exact List.nil_sublist _
        | some method =>
          obtain ⟨hname, -, hrecord⟩ := Method.ofDeclaration?_eq_some hmethod
          obtain ⟨token, hlead, hrow⟩ :=
            Header.exists_lead? (Header.ne_nil_of_methodName? hname)
          rw [hrecord, hlead, hrow]
          exact .refl _
      · exact List.nil_sublist _
    rw [methods, leads, List.map_append, List.map_append, List.map_append, List.map_append]
    exact (hown.append (ihMembers _ _)).append (ihRest _ _)

end Outline

/-- The lines of the methods of a source do not decrease. -/
theorem Structure.pairwise_line (source : List Char) :
    (ofSource source).methods.Pairwise fun earlier later ↦ earlier.line ≤ later.line := by
  have hlines := Outline.lines_sublist (Outline.ofForest (Forest.ofSource source)) false []
  have hleads : (Outline.ofForest (Forest.ofSource source)).leads.Sublist
      (Token.ofSource source) := by
    have hread := Outline.leads_read_sublist { content := .members } {} (Forest.ofSource source)
    rwa [Forest.ofSource, Forest.tokens_ofTokens] at hread
  have hrows : ((Token.ofSource source).map fun token ↦ token.row + 1).Pairwise (· ≤ ·) :=
    List.pairwise_map.mpr ((Token.pairwise_row_ofSource source).imp Nat.succ_le_succ)
  exact List.pairwise_map.mp (hrows.sublist (hlines.trans (hleads.map _)))

end Conform.Source
