import Conform.Proofs.Rendering.Layout
import Conform.Proofs.Summary.Style

/-!
The documentation of generated methods. A summary element holds a line for each line of
documentation, and none of them has a tag or a line end in it, so what the comments above a method
say is the first of these lines as the name and the others as the description
(`ofComments_comments`).
-/

set_option autoImplicit false

namespace Conform

namespace Rendering

/-! ### Summaries -/

/-- The first line of documentation, or else the identifier. -/
def Method.name (method : Method) : String :=
  (method.docs.head?.map (String.ofList ·.chars)).getD method.identifier.text

/-- The other lines of documentation. -/
def Method.description (method : Method) : String :=
  "\n".intercalate (method.docs.tail.map (String.ofList ·.chars))

theorem flatMap_commentLines (method : Method) (hdocs : method.docs ≠ []) :
    (method.comments.map String.ofList).flatMap
        (fun comment ↦ Summary.commentLines comment.toList) =
      " <summary>".toList :: (method.docs.map (' ' :: ·.chars) ++ [" </summary>".toList]) := by
  have hmap : ∀ docs : List DocLine,
      ((docs.map ("/// ".toList ++ ·.chars)).map String.ofList).flatMap
        (fun comment ↦ Summary.commentLines comment.toList) = docs.map (' ' :: ·.chars) := by
    intro docs
    induction docs with
    | nil => rfl
    | cons doc rest ih =>
      rw [List.map_cons, List.map_cons, List.flatMap_cons, ih, String.toList_ofList]
      rfl
  rw [Method.comments, if_neg (by simpa using hdocs), List.map_append, List.map_append,
    List.flatMap_append, List.flatMap_append, hmap]
  rfl

theorem DocLine.isTidy (doc : DocLine) : Summary.IsTidy doc.chars where
  filled := doc.isFilled
  trimmed := doc.isTrimmed ▸ Text.isTrimmed_trim doc.chars
  single := fun hfeed ↦ absurd (doc.isInline _ hfeed) (by decide)

/-- The comments above a method say its documentation. -/
theorem ofComments_comments (method : Method) :
    Summary.ofComments (method.comments.map String.ofList) =
      ⟨method.docs.head?.map (String.ofList ·.chars), method.description⟩ := by
  by_cases hdocs : method.docs = []
  case pos =>
    rw [Method.comments, Method.description, hdocs]
    rfl
  case neg =>
    have hlines : ∀ line ∈ method.docs.map DocLine.chars, Summary.IsTidy line ∧ '<' ∉ line := by
      rw [List.forall_mem_map]
      exact fun doc _ ↦ ⟨doc.isTidy, doc.isPlain⟩
    have htext := @Summary.ofText_element [] _ (List.forall_mem_nil _) hlines []
    rw [List.nil_append, List.map_map] at htext
    rw [Summary.ofComments_eq, flatMap_commentLines method hdocs]
    refine htext.trans ?_
    obtain ⟨first, rest, hcons⟩ := List.exists_cons_of_ne_nil hdocs
    rw [hcons, List.map_cons, Summary.ofLines, List.map_map, Method.description, hcons]
    rfl

end Rendering
end Conform
