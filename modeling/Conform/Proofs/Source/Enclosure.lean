import Conform.Proofs.Source.Isolation

/-!
The bodies of types in a row of declarations. A token opens the body of a type
(`Outline.hasBodyAt`); the body is then a hole of the row, and the methods of the row are those of
the body with others in front, which stay as they are, and others behind, which move with the length
of the body (`Outline.exists_surrounds`).
-/

set_option autoImplicit false

namespace Conform.Source

/-- Whether the ending is a block that a token opens. -/
def Ending.opensAt (token : Token) : Ending → Bool
  | block opening _ _ => opening = token
  | _ => false

namespace Outline

def isEmpty : Outline → Bool
  | empty => true
  | _ => false

theorem ne_empty_of_isEmpty {outline : Outline} (hempty : (!outline.isEmpty) = true) :
    outline ≠ empty := by
  rintro rfl
  contradiction

/-- Whether a token opens the body of a type, and something is read in it. -/
def hasBodyAt (token : Token) : Outline → Bool
  | empty => false
  | comment _ rest => rest.hasBodyAt token
  | directive _ rest => rest.hasBodyAt token
  | declaration header ending members rest =>
    Header.isType header && ending.opensAt token && !members.isEmpty ||
      (members.hasBodyAt token || rest.hasBodyAt token)

theorem hasBodyAt_append {front : Outline} (hfront : front.Blockless) (token : Token)
    (outline : Outline) : (front.append outline).hasBodyAt token = outline.hasBodyAt token := by
  induction front with
  | empty => rfl
  | comment _ rest ih => exact ih hfront
  | directive _ rest ih => exact ih hfront
  | declaration header ending members rest _ ih =>
    obtain ⟨hending, rfl, hrest⟩ := hfront
    rw [append, hasBodyAt, ih hrest]
    simp [hasBodyAt, isEmpty]

variable {course : Course} {draft : Draft}

theorem opensAt_of_blockless (hdraft : draft.Blockless) {opening token : Token} {inner : Forest}
    {closing : Option Token}
    (hopens : (draft.ending.getD (.block opening inner closing)).opensAt token = true) :
    token = opening := by
  cases hending : draft.ending with
  | none =>
    rw [hending, Option.getD_none, Ending.opensAt, decide_eq_true_eq] at hopens
    exact hopens.symm
  | some ending =>
    rw [hending, Option.getD_some] at hopens
    cases ending with
    | block opening inner closing => exact absurd hending (hdraft opening inner closing)
    | _ => contradiction

/-! ### The methods around a body -/

/-- What is told of a row with the body of a type at a place, for any content of the body: methods
in front, those of the content, and methods behind, which are where the row goes on. -/
def Surrounds (told : Row → Outline) (inType : Bool) (docs : List String) (opens : Place)
    (front later : List Method) : Prop :=
  ∀ content, (told content).methods inType docs =
    front ++ ((ofForest (content.forest opens.inside)).methods true [] ++
      later.map (Method.shift (opens.past content)))

section Surrounds

variable {told image : Row → Outline} {inType : Bool} {opens : Place} {inside : Content}
  {next : Course} {row : Row} {context : Row.Context}

theorem Surrounds.wrap {front : Outline} (hfront : front.Blockless)
    (htold : ∀ docs, ∃ front later, Surrounds told inType docs opens front later)
    (himage : ∀ content, image content = front.append (told content)) (docs : List String) :
    ∃ front later, Surrounds image inType docs opens front later := by
  obtain ⟨more, docs', -, hmethods⟩ := (isPrelude_append hfront).methods inType docs
  obtain ⟨front, later, hsurrounds⟩ := htold docs'
  refine ⟨more ++ front, later, fun content ↦ ?_⟩
  rw [himage, hmethods, hsurrounds, List.append_assoc]

/-- The body may be the block of the declaration itself. -/
theorem surrounds_own (htype : Header.isType draft.reversed.reverse = true) {inner : Forest}
    (hfilled : membersOf draft inside inner ≠ empty) (docs : List String) :
    ∃ front later, Surrounds (fun other ↦ blockOutline draft inside next opens other row) inType
      docs opens front later := by
  obtain ⟨hmethod, hmembers⟩ := membersOf_of_ne_empty hfilled
  refine ⟨[], (read next {} (row.forest {})).methods inType [], fun other ↦ ?_⟩
  rw [methods_blockOutline, ownMethods_of_isMethod hmethod, hmembers, htype, read_past,
    methods_shift]
  rfl

/-- The body may be in the members of the declaration. -/
theorem surrounds_members {inner : Forest} (hfilled : membersOf draft inside inner ≠ empty)
    (hinner : ∀ inType docs, ∃ front later, Surrounds
      (fun other ↦ read { content := .members } {} ((context.plug other).forest opens.inside))
        inType docs (context.opens opens.inside) front later) (docs : List String) :
    ∃ front later, Surrounds
      (fun other ↦ blockOutline draft inside next opens (context.plug other) row) inType docs
        (context.opens opens.inside) front later := by
  obtain ⟨hmethod, hmembers⟩ := membersOf_of_ne_empty hfilled
  obtain ⟨front, later, hsurrounds⟩ := hinner (Header.isType draft.reversed.reverse) []
  refine ⟨front, later ++ (read next {} (row.forest context.beyond)).methods inType [],
    fun other ↦ ?_⟩
  have hrest : read next {} (row.forest (opens.past (context.plug other))) =
      (read next {} (row.forest context.beyond)).shift
        ((context.opens opens.inside).past other) := by
    rw [context.past_plug, row.forest_shift]
    exact read_shift _ _ next {}
  have hown := hsurrounds other
  dsimp only at hown
  rw [methods_blockOutline, ownMethods_of_isMethod hmethod, hmembers, hown, hrest,
    methods_shift, List.map_append, List.nil_append, List.append_assoc, List.append_assoc]

/-- The body may be behind the declaration. -/
theorem surrounds_rest {inner : Row}
    (hrest : ∀ docs, ∃ front later, Surrounds
      (fun other ↦ read next {} ((context.plug other).forest (opens.past inner)))
        inType docs (context.opens (opens.past inner)) front later) (docs : List String) :
    ∃ front later, Surrounds
      (fun other ↦ blockOutline draft inside next opens inner (context.plug other)) inType docs
        (context.opens (opens.past inner)) front later := by
  obtain ⟨front, later, hsurrounds⟩ := hrest []
  refine ⟨ownMethods draft inType docs opens inner ++
    ((membersOf draft inside (inner.forest opens.inside)).methods
      (Header.isType draft.reversed.reverse) [] ++ front), later, fun other ↦ ?_⟩
  rw [methods_blockOutline, hsurrounds, List.append_assoc, List.append_assoc]

end Surrounds

/-- Assumes: a token in a row that opens the body of a type. The body is a hole of the row, and the
methods of the row are those of the body between others, whatever the body holds. -/
theorem exists_surrounds (row : Row) (place : Place) (course : Course) {draft : Draft}
    (hdraft : draft.Blockless) {token : Token}
    (hbody : (read course draft (row.forest place)).hasBodyAt token = true) :
    ∃ (context : Row.Context) (content : Row), row = context.plug content ∧
      token = Bracket.brace.opening.at (context.opens place) ∧ ∀ inType docs, ∃ front later,
        Surrounds (fun other ↦ read course draft ((context.plug other).forest place)) inType docs
          (context.opens place) front later := by
  induction row generalizing place course draft with
  | empty =>
    obtain ⟨front, hfront, hclose⟩ := close_blockless hdraft
    rw [Row.forest, read, hclose, hasBodyAt_append hfront] at hbody
    contradiction
  | single lexeme rest ih =>
    obtain ⟨front, next, draft', hfront, hdraft', hread⟩ := read_leaf_front course hdraft
      (lexeme.at place) (rest.forest (place.after lexeme.chars))
    rw [Row.forest, hread _ rfl, hasBodyAt_append hfront] at hbody
    obtain ⟨context, content, rfl, htoken, hsurrounds⟩ := ih _ next hdraft' hbody
    exact ⟨.single lexeme context, content, rfl, htoken, fun inType ↦
      Surrounds.wrap hfront (hsurrounds inType) fun other ↦ hread _ (context.face_plug _ _ _ _)⟩
  | group bracket inner rest ihInner ihRest =>
    rw [Row.forest] at hbody
    cases hready : (course.step (Sign.ofGroup (bracket.opening.at place)
      (inner.forest (place.after bracket.opening.chars)))
      (rest.forest (((place.after bracket.opening.chars).after inner.chars).after
        bracket.closing.chars))).course.isReady with
    | false =>
      obtain ⟨front, next, draft', hfront, hdraft', hread⟩ := read_group_front hdraft _ _
        (some (bracket.closing.at ((place.after bracket.opening.chars).after inner.chars))) _ hready
      rw [hread _ rfl, hasBodyAt_append hfront] at hbody
      obtain ⟨context, content, rfl, htoken, hsurrounds⟩ := ihRest _ next hdraft' hbody
      exact ⟨.behind bracket inner context, content, rfl, htoken, fun inType ↦
        Surrounds.wrap hfront (hsurrounds inType) fun other ↦ hread _ (context.face_plug _ _ _ _)⟩
    | true =>
      obtain rfl := Course.eq_brace_of_isReady hready
      obtain ⟨front, next, draft', inside, hfront, hdraft', hread⟩ :=
        read_braces_front hdraft _ _ _ hready
      rw [hread _ _ _ rfl, hasBodyAt_append hfront, Draft.declare, hasBodyAt, Bool.or_eq_true,
        Bool.or_eq_true, Bool.and_eq_true, Bool.and_eq_true] at hbody
      rcases hbody with ⟨⟨htype, hopens⟩, hfilled⟩ | hmembers | hrest
      · refine ⟨.hole rest, inner, rfl, opensAt_of_blockless hdraft' hopens, fun inType ↦ ?_⟩
        exact Surrounds.wrap hfront (surrounds_own htype (ne_empty_of_isEmpty hfilled))
          fun other ↦ hread _ _ _ (rest.face_forest _ _)
      · have hfilled : membersOf draft' inside (inner.forest place.inside) ≠ empty := by
          intro hempty
          rw [Place.inside] at hempty
          rw [hempty] at hmembers
          contradiction
        rw [(membersOf_of_ne_empty hfilled).2] at hmembers
        obtain ⟨context, content, rfl, htoken, hsurrounds⟩ :=
          ihInner _ _ blockless_new hmembers
        exact ⟨.within context rest, content, rfl, htoken, fun inType ↦
          Surrounds.wrap hfront (surrounds_members hfilled hsurrounds)
            fun other ↦ hread _ _ _ (rest.face_forest _ _)⟩
      · obtain ⟨context, content, rfl, htoken, hsurrounds⟩ := ihRest _ next blockless_new hrest
        exact ⟨.behind .brace inner context, content, rfl, htoken, fun inType ↦
          Surrounds.wrap hfront (surrounds_rest (hsurrounds inType))
            fun other ↦ hread _ _ _ (context.face_plug _ _ _ _)⟩

end Outline

end Conform.Source
