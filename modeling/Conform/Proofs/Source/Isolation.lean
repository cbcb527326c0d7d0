import Conform.Proofs.Source.Context
import Mathlib.Tactic.SplitIfs

/-!
The blocks of methods in a row of declarations. A method with a block stands around a hole of the
row (`Outline.hasHoles`), and the reading of the row does not look into the hole: with any other
content there the row tells the same namespaces and imports and the same methods, those before the
hole as they were and those behind it at their new places.
-/

set_option autoImplicit false

namespace Conform.Source

/-! ### Brackets that end a declaration -/

namespace Course

theorem isReady_begin_round (course : Course) (isType : Bool) :
    (course.begin (.round isType)).course.isReady = false := by
  have hnext : ((Phrase.start course.content).next? (.round isType)) =
      some ((Phrase.start course.content).afterRound isType) := by
    cases course.content <;> rfl
  simp [begin, hnext, isReady]

theorem isReady_round (course : Course) (isType : Bool) (rest : Forest) :
    (course.step (.round isType) rest).course.isReady = false := by
  change (course.advance (.round isType)).course.isReady = false
  unfold advance
  dsimp only
  split
  · rfl
  · rename_i hphase
    simp [isReady, hphase]
  · split
    · rfl
    · exact isReady_begin_round _ isType
  · exact isReady_begin_round course isType

theorem isReady_square (course : Course) (rest : Forest) :
    (course.step .square rest).course.isReady = false := by
  change (course.advance .square).course.isReady = false
  unfold advance
  dsimp only
  split
  · rename_i hphase
    simp [isReady, hphase]
  · rename_i hphase
    simp [isReady, hphase]
  · split <;> rfl
  · rfl

/-- Only braces end a declaration. -/
theorem ofGroup_eq_brace {course : Course} {opening : Token} {inner rest : Forest}
    (hready : (course.step (Sign.ofGroup opening inner) rest).course.isReady = true) :
    Sign.ofGroup opening inner = .brace := by
  unfold Sign.ofGroup at hready ⊢
  split at hready
  · rw [isReady_round] at hready
    contradiction
  · split at hready
    · rw [isReady_square] at hready
      contradiction
    · simp_all

theorem eq_brace_of_isReady {course : Course} {bracket : Bracket} {place : Place}
    {inner rest : Forest}
    (hready : (course.step (Sign.ofGroup (bracket.opening.at place) inner) rest).course.isReady =
      true) : bracket = .brace := by
  have hsign := ofGroup_eq_brace hready
  cases bracket with
  | brace => rfl
  | _ => contradiction

end Course

/-- What braces hold does not show. -/
theorem Sign.ofGroup_brace {opening : Token} {inner : Forest}
    (hbrace : ofGroup opening inner = .brace) (content : Forest) :
    ofGroup opening content = .brace := by
  unfold ofGroup at hbrace ⊢
  split_ifs at hbrace ⊢
  rfl

/-! ### What precedes the rest of a row -/

/-- The body is no block. -/
def Body.Blockless (body : Body) : Prop :=
  ∀ span statements, body ≠ .block span statements

/-- The declaration under construction has not met a block. -/
def Draft.Blockless (draft : Draft) : Prop :=
  ∀ opening inner closing, draft.ending ≠ some (.block opening inner closing)

theorem Body.ofEnding_eq_block {ending : Ending} {span : Span} {statements : Option Span}
    (hending : ofEnding ending = some (.block span statements)) :
    ∃ opening inner closing, ending = .block opening inner closing ∧
      span = ⟨opening.start, Forest.groupStop opening inner closing⟩ ∧
      statements = inner.statements? := by
  cases ending with
  | block opening inner closing =>
    cases hending
    exact ⟨opening, inner, closing, rfl, rfl, rfl⟩
  | _ => cases hending

theorem blockless_new : ({} : Draft).Blockless :=
  fun _ _ _ ↦ nofun

namespace Method

theorem ofDeclaration?_eq_some {docs : List String} {header : Header} {ending : Ending}
    {method : Method} (hmethod : ofDeclaration? docs header ending = some method) :
    Header.methodName? header = some method.identifier ∧ Body.ofEnding ending = some method.body ∧
      method = ⟨method.identifier, Header.row header + 1, method.body, docs⟩ := by
  simp only [ofDeclaration?, Option.pure_def, Option.bind_eq_bind, Option.bind_eq_some_iff,
    Option.some.injEq] at hmethod
  obtain ⟨name, hname, body, hbody, rfl⟩ := hmethod
  exact ⟨hname, hbody, rfl⟩

theorem ofDeclaration?_of_some {docs : List String} {header : Header} {ending : Ending}
    {name : String} {body : Body} (hname : Header.methodName? header = some name)
    (hbody : Body.ofEnding ending = some body) :
    ofDeclaration? docs header ending = some ⟨name, Header.row header + 1, body, docs⟩ := by
  rw [ofDeclaration?, hname, hbody]
  rfl

end Method

namespace Outline

/-- What is put in front of an outline adds to what it tells, and has no block. -/
structure IsPrelude (wrap : Outline → Outline) : Prop where
  methods : ∀ inType docs, ∃ front docs', (∀ method ∈ front, Body.Blockless method.body) ∧
    ∀ outline : Outline, (wrap outline).methods inType docs = front ++ outline.methods inType docs'
  spaceNames : ∃ front, ∀ outline : Outline, (wrap outline).spaceNames = front ++ outline.spaceNames
  imports : ∃ front, ∀ outline : Outline, (wrap outline).imports = front ++ outline.imports

theorem isPrelude_id : IsPrelude id where
  methods _ docs := ⟨[], docs, nofun, fun _ ↦ rfl⟩
  spaceNames := ⟨[], fun _ ↦ rfl⟩
  imports := ⟨[], fun _ ↦ rfl⟩

theorem isPrelude_comment (token : Token) : IsPrelude (comment token) where
  methods _ _ := ⟨[], _, nofun, fun _ ↦ rfl⟩
  spaceNames := ⟨[], fun _ ↦ rfl⟩
  imports := ⟨[], fun _ ↦ rfl⟩

theorem isPrelude_directive (token : Token) : IsPrelude (directive token) where
  methods _ _ := ⟨[], _, nofun, fun _ ↦ rfl⟩
  spaceNames := ⟨[], fun _ ↦ rfl⟩
  imports := ⟨[], fun _ ↦ rfl⟩

theorem isPrelude_declaration {header : Header} {ending : Ending}
    (hending : ∀ opening inner closing, ending ≠ .block opening inner closing) :
    IsPrelude (declaration header ending .empty) where
  methods inType docs := by
    refine ⟨_, [], ?_, fun outline ↦ by rw [methods, methods, List.append_nil]⟩
    intro method hmethod span statements hbody
    split at hmethod
    · obtain ⟨-, hmade, -⟩ := Method.ofDeclaration?_eq_some (Option.mem_toList.mp hmethod)
      obtain ⟨opening, inner, closing, hblock, -⟩ := Body.ofEnding_eq_block (hbody ▸ hmade)
      exact hending opening inner closing hblock
    · contradiction
  spaceNames := ⟨_, fun outline ↦ by rw [spaceNames, spaceNames, List.append_nil]⟩
  imports := ⟨_, fun outline ↦ congrArg (· ++ outline.imports) (List.append_nil _)⟩

theorem IsPrelude.comp {wrap inner : Outline → Outline} (hwrap : IsPrelude wrap)
    (hinner : IsPrelude inner) : IsPrelude (wrap ∘ inner) where
  methods inType docs := by
    obtain ⟨front, docs', hfront, hmethods⟩ := hwrap.methods inType docs
    obtain ⟨more, docs'', hmore, hothers⟩ := hinner.methods inType docs'
    refine ⟨front ++ more, docs'', ?_, fun outline ↦ ?_⟩
    · intro method hmethod
      exact (List.mem_append.mp hmethod).elim (hfront method) (hmore method)
    · rw [Function.comp_apply, hmethods, hothers, List.append_assoc]
  spaceNames := by
    obtain ⟨front, hfront⟩ := hwrap.spaceNames
    obtain ⟨more, hmore⟩ := hinner.spaceNames
    exact ⟨front ++ more, fun outline ↦ by
      rw [Function.comp_apply, hfront, hmore, List.append_assoc]⟩
  imports := by
    obtain ⟨front, hfront⟩ := hwrap.imports
    obtain ⟨more, hmore⟩ := hinner.imports
    exact ⟨front ++ more, fun outline ↦ by
      rw [Function.comp_apply, hfront, hmore, List.append_assoc]⟩

/-- An outline with another one behind it. -/
def append : Outline → Outline → Outline
  | empty, other => other
  | comment token rest, other => comment token (rest.append other)
  | directive token rest, other => directive token (rest.append other)
  | declaration header ending members rest, other =>
    declaration header ending members (rest.append other)

/-- No declaration of the outline ends in a block. -/
def Blockless : Outline → Prop
  | empty => True
  | comment _ rest => rest.Blockless
  | directive _ rest => rest.Blockless
  | declaration _ ending members rest =>
    (∀ opening inner closing, ending ≠ .block opening inner closing) ∧ members = empty ∧
      rest.Blockless

theorem append_assoc (front outline other : Outline) :
    (front.append outline).append other = front.append (outline.append other) := by
  induction front with
  | empty => rfl
  | comment token rest ih => rw [append, append, append, ih]
  | directive token rest ih => rw [append, append, append, ih]
  | declaration header ending members rest _ ih => rw [append, append, append, ih]

theorem Blockless.append {front outline : Outline} (hfront : front.Blockless)
    (houtline : outline.Blockless) : (front.append outline).Blockless := by
  induction front with
  | empty => exact houtline
  | comment token rest ih => exact ih hfront
  | directive token rest ih => exact ih hfront
  | declaration header ending members rest _ ih => exact ⟨hfront.1, hfront.2.1, ih hfront.2.2⟩

theorem isPrelude_append {front : Outline} (hfront : front.Blockless) :
    IsPrelude front.append := by
  induction front with
  | empty => exact isPrelude_id
  | comment token rest ih => exact (isPrelude_comment token).comp (ih hfront)
  | directive token rest ih => exact (isPrelude_directive token).comp (ih hfront)
  | declaration header ending members rest _ ih =>
    obtain ⟨hending, rfl, hrest⟩ := hfront
    exact (isPrelude_declaration hending).comp (ih hrest)

/-! ### Reading tree by tree -/

variable {course : Course} {draft : Draft}

theorem declare_blockless (hdraft : draft.Blockless) :
    ∃ front : Outline, front.Blockless ∧
      ∀ rest, draft.declare .semicolon empty rest = front.append rest := by
  refine ⟨draft.declare .semicolon empty empty, ⟨fun opening inner closing ↦ ?_, rfl, trivial⟩,
    fun _ ↦ rfl⟩
  cases hending : draft.ending with
  | none => exact Ending.noConfusion
  | some ending =>
    rw [Option.getD_some]
    exact fun hblock ↦ hdraft opening inner closing (hending.trans (congrArg some hblock))

theorem close_blockless (hdraft : draft.Blockless) :
    ∃ front : Outline, front.Blockless ∧ ∀ rest, draft.close rest = front.append rest := by
  unfold Draft.close
  cases draft.isEmpty with
  | true => exact ⟨empty, trivial, fun _ ↦ rfl⟩
  | false => exact declare_blockless hdraft

/-- A draft after a tree before which a semicolon may be missing, and what is put in front then. -/
theorem finish_blockless (hdraft : draft.Blockless) (isCut : Bool) :
    (∃ front : Outline, front.Blockless ∧
      ∀ rest, (if isCut then draft.close else id) rest = front.append rest) ∧
        (if isCut then ({} : Draft) else draft).Blockless := by
  cases isCut with
  | true => exact ⟨close_blockless hdraft, nofun⟩
  | false => exact ⟨⟨empty, trivial, fun _ ↦ rfl⟩, hdraft⟩

theorem blockless_add (hdraft : draft.Blockless) (piece : Piece) : (draft.add piece).Blockless := by
  intro opening inner closing
  unfold Draft.add
  split
  · exact hdraft opening inner closing
  · rename_i hending
    split
    · exact hdraft opening inner closing
    · split
      · nofun
      · split
        · nofun
        · exact hending ▸ nofun

/-- A single token is read by itself: what it adds in front of the rest depends on no more than the
face of the rest. -/
theorem read_leaf_front (course : Course) (hdraft : draft.Blockless) (token : Token)
    (rest : Forest) :
    ∃ (front : Outline) (next : Course) (draft' : Draft), front.Blockless ∧ draft'.Blockless ∧
      ∀ other : Forest, other.face = rest.face →
        read course draft (.leaf token other) = front.append (read next draft' other) := by
  have hstep : ∀ other : Forest, other.face = rest.face →
      course.step (Sign.ofToken token other) other =
        course.step (Sign.ofToken token rest) rest := by
    intro other hface
    rw [Sign.ofToken_congr hface rfl, Course.step_congr hface]
  generalize course.step (Sign.ofToken token rest) rest = step at hstep
  obtain ⟨⟨front, hfront, hfinish⟩, hcut⟩ := finish_blockless hdraft step.isCut
  have hadd := blockless_add hcut (.token token)
  cases hcovered : step.isCovered with
  | true =>
    cases hready : step.course.isReady with
    | true =>
      obtain ⟨own, hown, hdeclare⟩ := declare_blockless hadd
      exact ⟨front.append own, step.course, {}, hfront.append hown, nofun, fun other hface ↦ by
        simp only [read, hstep other hface, hcovered, hready, if_true, hfinish, hdeclare,
          append_assoc]⟩
    | false =>
      exact ⟨front, step.course, _, hfront, hadd, fun other hface ↦ by
        simp only [read, hstep other hface, hcovered, hready, if_true, Bool.false_eq_true,
          if_false, hfinish]⟩
  | false =>
    cases hkind : token.kind with
    | comment =>
      exact ⟨front.append (comment token empty), step.course, _, hfront.append trivial, hcut,
        fun other hface ↦ by
          simp only [read, hstep other hface, hcovered, hkind, Bool.false_eq_true, if_false,
            hfinish, append_assoc, append]⟩
    | directive =>
      exact ⟨front.append (directive token empty), step.course, _, hfront.append trivial, hcut,
        fun other hface ↦ by
          simp only [read, hstep other hface, hcovered, hkind, Bool.false_eq_true, if_false,
            hfinish, append_assoc, append]⟩
    | _ =>
      exact ⟨front, step.course, _, hfront, hcut, fun other hface ↦ by
        simp only [read, hstep other hface, hcovered, hkind, Bool.false_eq_true, if_false,
          hfinish]⟩

/-- Assumes: a group that ends no declaration. It is read by itself, as a part of a header. -/
theorem read_group_front (hdraft : draft.Blockless) (opening : Token) (inner : Forest)
    (closing : Option Token) (rest : Forest)
    (hready : (course.step (Sign.ofGroup opening inner) rest).course.isReady = false) :
    ∃ (front : Outline) (next : Course) (draft' : Draft), front.Blockless ∧ draft'.Blockless ∧
      ∀ other : Forest, other.face = rest.face →
        read course draft (.group opening inner closing other) =
          front.append (read next draft' other) := by
  have hstep : ∀ other : Forest, other.face = rest.face →
      course.step (Sign.ofGroup opening inner) other =
        course.step (Sign.ofGroup opening inner) rest := by
    intro other hface
    rw [Course.step_congr hface]
  generalize course.step (Sign.ofGroup opening inner) rest = step at hstep hready
  obtain ⟨⟨front, hfront, hfinish⟩, hcut⟩ := finish_blockless hdraft step.isCut
  exact ⟨front, step.course, _, hfront, blockless_add hcut (.group opening inner.tokens closing),
    fun other hface ↦ by
      simp only [read, hstep other hface, hready, Bool.false_eq_true, if_false, hfinish]⟩

/-- The members of a declaration that ends in braces. -/
def membersOf (draft : Draft) (inside : Content) (inner : Forest) : Outline :=
  if inside = .members && !draft.isMethod then read { content := .members } {} inner else empty

/-- Assumes: a pair of braces that ends a declaration. What stands before the declaration and what
is read behind it depends on neither the content of the braces nor the places of the rest. -/
theorem read_braces_front (hdraft : draft.Blockless) (opening : Token) (inner rest : Forest)
    (hready : (course.step (Sign.ofGroup opening inner) rest).course.isReady = true) :
    ∃ (front : Outline) (next : Course) (draft' : Draft) (inside : Content), front.Blockless ∧
      draft'.Blockless ∧
      ∀ (content : Forest) (closing : Option Token) (other : Forest), other.face = rest.face →
        read course draft (.group opening content closing other) =
          front.append (draft'.declare (.block opening content closing)
            (membersOf draft' inside content) (read next {} other)) := by
  have hbrace := Course.ofGroup_eq_brace hready
  have hstep : ∀ content other : Forest, other.face = rest.face →
      course.step (Sign.ofGroup opening content) other =
        course.step (Sign.ofGroup opening inner) rest := by
    intro content other hface
    rw [Course.step_congr hface, Sign.ofGroup_brace hbrace content, hbrace]
  generalize course.step (Sign.ofGroup opening inner) rest = step at hstep hready
  obtain ⟨⟨front, hfront, hfinish⟩, hcut⟩ := finish_blockless hdraft step.isCut
  exact ⟨front, step.course, _, step.inside, hfront, hcut, fun content closing other hface ↦ by
    simp only [read, hstep content other hface, hready, if_true, membersOf, hfinish]⟩

/-! ### Holes -/

/-- What is told of a row with a block of a method at a place, for any content of the block: the
methods before it do not reach it, those behind it are where the row goes on, and nothing else
changes. -/
structure Isolates (outline : Row → Outline) (inType : Bool) (docs : List String) (opens : Place)
    (content : Row) (front : List Method) (method : Method) (later : List Method) : Prop where
  body : method.body = Body.blockAt opens content
  before : ∀ earlier ∈ front, ∀ span statements, earlier.body = .block span statements →
    span.stop ≤ opens.byte
  methods : ∀ other, (outline other).methods inType docs =
    front ++ { method with body := Body.blockAt opens other } ::
      later.map (Method.shift (opens.past other))
  spaceNames : ∀ other, (outline other).spaceNames = (outline content).spaceNames
  imports : ∀ other, (outline other).imports = (outline content).imports

section Isolates

variable {outline image : Row → Outline} {inType : Bool} {docs docs' : List String} {opens : Place}
  {content : Row} {front more rest later : List Method} {method : Method}

theorem append_cons_eq_append {others : List Method}
    (happend : front ++ method :: rest = more ++ others) :
    (∃ back, more = front ++ method :: back ∧ rest = back ++ others) ∨
      ∃ back, front = more ++ back ∧ others = back ++ method :: rest := by
  rcases List.append_eq_append_iff.mp happend with ⟨back, rfl, hback⟩ | ⟨back, rfl, hback⟩
  · cases back with
    | nil => exact .inr ⟨[], by simp, by simpa using hback.symm⟩
    | cons first back =>
      obtain ⟨rfl, rfl⟩ := List.cons.inj hback
      exact .inl ⟨back, rfl, rfl⟩
  · exact .inr ⟨back, rfl, hback⟩

/-- The methods behind the block in the row as it is. -/
theorem Isolates.rest_eq (hisolates : Isolates outline inType docs opens content front method later)
    (hmethods : (outline content).methods inType docs = front ++ method :: rest) :
    rest = later.map (Method.shift (opens.past content)) := by
  rw [hisolates.methods, ← hisolates.body] at hmethods
  exact (List.cons.inj (List.append_cancel_left hmethods)).2.symm

/-- What stands in front of the rest of the row changes nothing. -/
theorem Isolates.wrap (hisolates : Isolates outline inType docs' opens content front method later)
    {wrap : Outline → Outline} (hprelude : IsPrelude wrap)
    (hmore : ∀ earlier ∈ more, Body.Blockless earlier.body)
    (hmethods : ∀ outline : Outline,
      (wrap outline).methods inType docs = more ++ outline.methods inType docs')
    (himage : ∀ other, image other = wrap (outline other)) :
    Isolates image inType docs opens content (more ++ front) method later where
  body := hisolates.body
  before earlier hearlier span statements hbody :=
    (List.mem_append.mp hearlier).elim
      (fun hmem ↦ absurd hbody (hmore earlier hmem span statements))
      (fun hmem ↦ hisolates.before earlier hmem span statements hbody)
  methods other := by
    rw [himage, hmethods, hisolates.methods, List.append_assoc]
  spaceNames other := by
    obtain ⟨names, hnames⟩ := hprelude.spaceNames
    rw [himage, himage, hnames, hnames, hisolates.spaceNames]
  imports other := by
    obtain ⟨imports, himports⟩ := hprelude.imports
    rw [himage, himage, himports, himports, hisolates.imports]

end Isolates

/-! ### A declaration that ends in braces -/

/-- The declaration that ends in a block, before the rest of a row. -/
def blockOutline (draft : Draft) (inside : Content) (next : Course) (opens : Place)
    (content row : Row) : Outline :=
  draft.declare
    (.block (Bracket.brace.opening.at opens) (content.forest opens.inside)
      (some (Bracket.brace.closing.at (opens.closes content))))
    (membersOf draft inside (content.forest opens.inside))
    (read next {} (row.forest (opens.past content)))

/-- The method that the declaration is itself. -/
def ownMethods (draft : Draft) (inType : Bool) (docs : List String) (opens : Place)
    (content : Row) : List Method :=
  if inType then
    (Method.ofDeclaration? docs draft.reversed.reverse (draft.ending.getD
      (.block (Bracket.brace.opening.at opens) (content.forest opens.inside)
        (some (Bracket.brace.closing.at (opens.closes content)))))).toList
  else []

section Block

variable {inside : Content} {next : Course} {opens : Place} {content row : Row} {inType : Bool}
  {docs : List String} {method : Method}

theorem methods_blockOutline :
    (blockOutline draft inside next opens content row).methods inType docs =
      ownMethods draft inType docs opens content ++
        ((membersOf draft inside (content.forest opens.inside)).methods
            (Header.isType draft.reversed.reverse) [] ++
          (read next {} (row.forest (opens.past content))).methods inType []) :=
  List.append_assoc _ _ _

theorem spaceNames_blockOutline :
    (blockOutline draft inside next opens content row).spaceNames =
      (Header.spaceName? draft.reversed.reverse).toList ++
        ((membersOf draft inside (content.forest opens.inside)).spaceNames ++
          (read next {} (row.forest (opens.past content))).spaceNames) :=
  List.append_assoc _ _ _

theorem imports_declaration (header : Header) (ending : Ending) (members rest : Outline) :
    (declaration header ending members rest).imports =
      (declaration header ending empty empty).imports ++ (members.imports ++ rest.imports) := by
  cases ending <;> simp [imports]

/-- What the declaration imports itself does not depend on its block. -/
theorem imports_blockOutline (draft : Draft) (inside : Content) (next : Course) (opens : Place)
    (row : Row) :
    ∃ front, ∀ content, (blockOutline draft inside next opens content row).imports =
      front ++ ((membersOf draft inside (content.forest opens.inside)).imports ++
          (read next {} (row.forest (opens.past content))).imports) := by
  cases hending : draft.ending with
  | none =>
    refine ⟨[], fun content ↦ ?_⟩
    rw [blockOutline, Draft.declare, hending]
    rfl
  | some ending =>
    refine ⟨(declaration draft.reversed.reverse ending empty empty).imports, fun content ↦ ?_⟩
    rw [blockOutline, Draft.declare, hending]
    exact imports_declaration _ _ _ _

theorem ending_of_blockless (hdraft : draft.Blockless) {stored : Ending} {opening : Token}
    {inner : Forest} {closing : Option Token}
    (hstored : draft.ending.getD stored = .block opening inner closing) : draft.ending = none := by
  cases hending : draft.ending with
  | none => rfl
  | some ending =>
    rw [hending] at hstored
    exact absurd (hending.trans (congrArg some hstored)) (hdraft opening inner closing)

/-- A method that a declaration with a block is itself has that block. -/
theorem mem_ownMethods (hdraft : draft.Blockless)
    (hmethod : method ∈ ownMethods draft inType docs opens content)
    (hbody : ¬method.body.Blockless) :
    draft.isMethod = true ∧ method.body = Body.blockAt opens content ∧
      ∀ other, ownMethods draft inType docs opens other =
        [{ method with body := Body.blockAt opens other }] := by
  unfold ownMethods at hmethod ⊢
  cases inType with
  | false => contradiction
  | true =>
    obtain ⟨hname, hending, hmethod⟩ :=
      Method.ofDeclaration?_eq_some (Option.mem_toList.mp hmethod)
    obtain ⟨span, statements, hspan⟩ : ∃ span statements, method.body = .block span statements := by
      simpa [Body.Blockless] using hbody
    obtain ⟨_, _, _, hblock, -⟩ := Body.ofEnding_eq_block (hspan ▸ hending)
    have hnone := ending_of_blockless hdraft hblock
    rw [hnone] at hending
    refine ⟨?_, ?_, fun other ↦ ?_⟩
    · rw [Draft.isMethod, hname]
      rfl
    · exact (Option.some.inj hending).symm
    · rw [hnone, Option.getD_none, Method.ofDeclaration?_of_some hname rfl, hmethod]
      rfl

/-- The rest of a row is the same behind every block, but for its place. -/
theorem read_past (other : Row) :
    read next {} (row.forest (opens.past other)) =
      (read next {} (row.forest {})).shift (opens.past other) := by
  rw [row.forest_eq_shift]
  exact read_shift _ _ next {}

theorem membersOf_of_isMethod (hmethod : draft.isMethod = true) (inner : Forest) :
    membersOf draft inside inner = empty := by
  simp [membersOf, hmethod]

/-- Where members are read, they are read whatever the braces hold. -/
theorem membersOf_of_ne_empty {inner : Forest} (hmembers : membersOf draft inside inner ≠ empty) :
    draft.isMethod = false ∧ ∀ other, membersOf draft inside other =
      read { content := .members } {} other := by
  unfold membersOf at hmembers ⊢
  split at hmembers
  · rename_i hopen
    rw [Bool.and_eq_true, Bool.not_eq_true'] at hopen
    exact ⟨hopen.2, fun other ↦ if_pos (by simpa using hopen)⟩
  · contradiction

theorem isMethod_of_mem_membersOf {inner : Forest} {isType : Bool}
    (hmethod : method ∈ (membersOf draft inside inner).methods isType []) :
    draft.isMethod = false ∧ ∀ other, membersOf draft inside other =
      read { content := .members } {} other := by
  have hmembers : membersOf draft inside inner ≠ empty := by
    intro hempty
    rw [hempty] at hmethod
    contradiction
  exact membersOf_of_ne_empty hmembers

theorem ownMethods_of_isMethod (hmethod : draft.isMethod = false) :
    ownMethods draft inType docs opens content = [] := by
  rw [Draft.isMethod, Option.isSome_eq_false_iff, Option.isNone_iff_eq_none] at hmethod
  unfold ownMethods Method.ofDeclaration?
  rw [hmethod]
  cases inType <;> rfl

/-- The block may be that of the declaration itself. -/
theorem isolates_own (hdraft : draft.Blockless)
    (hmethod : method ∈ ownMethods draft inType docs opens content)
    (hbody : ¬method.body.Blockless) :
    Isolates (fun other ↦ blockOutline draft inside next opens other row) inType docs opens content
      [] method ((read next {} (row.forest {})).methods inType []) := by
  obtain ⟨hdraftMethod, hblock, hown⟩ := mem_ownMethods hdraft hmethod hbody
  have hmembers : ∀ inner, membersOf draft inside inner = empty :=
    membersOf_of_isMethod hdraftMethod
  refine ⟨hblock, nofun, fun other ↦ ?_, fun other ↦ ?_, fun other ↦ ?_⟩
  · rw [methods_blockOutline, hown, hmembers, read_past, methods_shift]
    rfl
  · rw [spaceNames_blockOutline, spaceNames_blockOutline, hmembers, hmembers, read_past,
      read_past content, spaceNames_shift, spaceNames_shift]
  · obtain ⟨front, himports⟩ := imports_blockOutline draft inside next opens row
    rw [himports, himports, hmembers, hmembers, read_past, read_past content, imports_shift,
      imports_shift]

/-- The block may stand in the members of the declaration. -/
theorem isolates_members {context : Row.Context} {front later : List Method}
    (hmethod : draft.isMethod = false)
    (hmembers : ∀ other, membersOf draft inside other = read { content := .members } {} other)
    (hisolates : Isolates
      (fun other ↦ read { content := .members } {} ((context.plug other).forest opens.inside))
      (Header.isType draft.reversed.reverse) [] (context.opens opens.inside) content front method
      later) :
    Isolates (fun other ↦ blockOutline draft inside next opens (context.plug other) row) inType docs
      (context.opens opens.inside) content front method
      (later ++ (read next {} (row.forest context.beyond)).methods inType []) := by
  have hrest : ∀ other, read next {} (row.forest (opens.past (context.plug other))) =
      (read next {} (row.forest context.beyond)).shift
        ((context.opens opens.inside).past other) := by
    intro other
    rw [context.past_plug, row.forest_shift]
    exact read_shift _ _ next {}
  refine ⟨hisolates.body, hisolates.before, fun other ↦ ?_, fun other ↦ ?_, fun other ↦ ?_⟩
  · rw [methods_blockOutline, ownMethods_of_isMethod hmethod, hmembers, hisolates.methods, hrest,
      methods_shift, List.map_append, List.nil_append, List.append_assoc]
    rfl
  · rw [spaceNames_blockOutline, spaceNames_blockOutline, hmembers, hmembers, hrest,
      hrest content, spaceNames_shift, spaceNames_shift, hisolates.spaceNames]
  · obtain ⟨more, himports⟩ := imports_blockOutline draft inside next opens row
    rw [himports, himports, hmembers, hmembers, hrest, hrest content, imports_shift,
      imports_shift, hisolates.imports]

/-- The block may stand behind the declaration. -/
theorem isolates_rest {context : Row.Context} {inner : Row} {front later : List Method}
    (hbefore : ∀ earlier ∈ ownMethods draft inType docs opens inner ++
      (membersOf draft inside (inner.forest opens.inside)).methods
        (Header.isType draft.reversed.reverse) [], ∀ span statements,
      earlier.body = .block span statements → span.stop ≤ (opens.past inner).byte)
    (hisolates : Isolates
      (fun other ↦ read next {} ((context.plug other).forest (opens.past inner)))
      inType [] (context.opens (opens.past inner)) content front method later) :
    Isolates (fun other ↦ blockOutline draft inside next opens inner (context.plug other)) inType
      docs (context.opens (opens.past inner)) content
      ((ownMethods draft inType docs opens inner ++
        (membersOf draft inside (inner.forest opens.inside)).methods
          (Header.isType draft.reversed.reverse) []) ++ front) method later := by
  refine ⟨hisolates.body, ?_, fun other ↦ ?_, fun other ↦ ?_, fun other ↦ ?_⟩
  · intro earlier hearlier span statements hspan
    rcases List.mem_append.mp hearlier with hmem | hmem
    · refine Nat.le_trans (hbefore earlier hmem span statements hspan) ?_
      rw [context.opens_eq]
      exact Place.byte_le_after _ _
    · exact hisolates.before earlier hmem span statements hspan
  · rw [methods_blockOutline, hisolates.methods, List.append_assoc, List.append_assoc]
  · rw [spaceNames_blockOutline, spaceNames_blockOutline, hisolates.spaceNames]
  · rw [blockOutline, blockOutline, Draft.declare, Draft.declare, imports_declaration,
      imports_declaration _ _ _ (read _ _ ((context.plug content).forest _)), hisolates.imports]

end Block

/-! ### Holes of a row -/

/-- Each method with a block that is told of a row stands around a hole of it, and the content of
the hole does not show in the rest of what is told. -/
def HasHoles (told : Row → Outline) (place : Place) (row : Row) : Prop :=
  ∀ ⦃inType : Bool⦄ ⦃docs : List String⦄ ⦃front rest : List Method⦄ ⦃method : Method⦄,
    (told row).methods inType docs = front ++ method :: rest → ¬method.body.Blockless →
      ∃ (context : Row.Context) (content : Row) (later : List Method),
        row = context.plug content ∧
          Isolates (fun other ↦ told (context.plug other)) inType docs (context.opens place) content
            front method later

section HasHoles

variable {told image : Row → Outline} {place : Place} {inner row : Row} {inside : Content}
  {next : Course} {inType : Bool} {docs : List String}

/-- Assumes: a row that may be extended, and with it every context in it. What is told of the
extended row is what is told of the row, with something in front that holds no block. -/
theorem HasHoles.wrap {begin : Place} (hholes : HasHoles told place row)
    {wrap : Outline → Outline} (hprelude : IsPrelude wrap) (extend : Row → Row)
    (around : Row.Context → Row.Context) (hplug : ∀ (context : Row.Context) (other : Row),
      (around context).plug other = extend (context.plug other))
    (hopens : ∀ context : Row.Context, (around context).opens begin = context.opens place)
    (hrow : image (extend row) = wrap (told row))
    (himage : ∀ (context : Row.Context) (content other : Row), row = context.plug content →
      image (extend (context.plug other)) = wrap (told (context.plug other))) :
    HasHoles image begin (extend row) := by
  intro inType docs front rest method hmethods hbody
  obtain ⟨more, docs', hmore, happend⟩ := hprelude.methods inType docs
  rw [hrow, happend] at hmethods
  rcases append_cons_eq_append hmethods.symm with ⟨back, rfl, -⟩ | ⟨back, rfl, hback⟩
  · exact absurd (hmore method (by simp)) hbody
  · obtain ⟨context, content, later, rfl, hisolates⟩ := hholes hback hbody
    refine ⟨around context, content, later, (hplug context content).symm, ?_⟩
    rw [hopens]
    refine hisolates.wrap hprelude hmore happend fun other ↦ ?_
    rw [hplug]
    exact himage context content other rfl

/-- What is told of a row that begins with the block of a declaration. -/
def blockOf (draft : Draft) (inside : Content) (next : Course) (opens : Place) : Row → Outline
  | .group _ content row => blockOutline draft inside next opens content row
  | _ => empty

/-- The blocks in a declaration do not reach beyond it. -/
theorem HasHoles.stop_le (hdraft : draft.Blockless)
    (hinner : HasHoles (fun row ↦ read { content := .members } {} (row.forest place.inside))
      place.inside inner) {method : Method}
    (hmethod : method ∈ ownMethods draft inType docs place inner ++
      (membersOf draft inside (inner.forest place.inside)).methods
        (Header.isType draft.reversed.reverse) []) {span : Span} {statements : Option Span}
    (hspan : method.body = .block span statements) :
    span.stop ≤ (place.past inner).byte := by
  have hbody : ¬method.body.Blockless := fun hblockless ↦ hblockless span statements hspan
  rcases List.mem_append.mp hmethod with hown | hmember
  · rw [(mem_ownMethods hdraft hown hbody).2.1] at hspan
    cases hspan
    exact Nat.le_refl _
  · obtain ⟨-, hopen⟩ := isMethod_of_mem_membersOf hmember
    rw [hopen] at hmember
    obtain ⟨_, _, happears⟩ := List.append_of_mem hmember
    obtain ⟨context, content, _, rfl, hisolates⟩ := hinner happears hbody
    rw [hisolates.body] at hspan
    cases hspan
    exact Nat.le_trans (context.past_le place.inside content) (Place.byte_le_after _ _)

/-- A method with a block in a declaration that ends in braces is the declaration itself, one of its
members, or stands behind it. -/
theorem HasHoles.block (hdraft : draft.Blockless)
    (hinner : HasHoles (fun row ↦ read { content := .members } {} (row.forest place.inside))
      place.inside inner)
    (hrow : HasHoles (fun row ↦ read next {} (row.forest (place.past inner))) (place.past inner)
      row) :
    HasHoles (blockOf draft inside next place) place (.group .brace inner row) := by
  intro inType docs front rest method hmethods hbody
  rw [blockOf, methods_blockOutline, ← List.append_assoc] at hmethods
  rcases append_cons_eq_append hmethods.symm with ⟨back, hfront, -⟩ | ⟨behind, rfl, hrest⟩
  · rcases append_cons_eq_append hfront.symm with ⟨_, hown, -⟩ | ⟨front, rfl, hmembers⟩
    · have hmem : method ∈ ownMethods draft inType docs place inner := hown ▸ by simp
      obtain ⟨-, -, hsingle⟩ := mem_ownMethods hdraft hmem hbody
      obtain rfl : front = [] := by
        have hlength := congrArg List.length hown
        rw [hsingle, List.length_append, List.length_cons, List.length_cons] at hlength
        exact List.length_eq_zero_iff.mp (by rw [List.length_nil] at hlength; omega)
      exact ⟨.hole row, inner, _, rfl, isolates_own hdraft hmem hbody⟩
    · have hmem : method ∈ (membersOf draft inside (inner.forest place.inside)).methods
          (Header.isType draft.reversed.reverse) [] := hmembers ▸ by simp
      obtain ⟨hmethod, hopen⟩ := isMethod_of_mem_membersOf hmem
      rw [hopen] at hmembers
      obtain ⟨context, content, later, rfl, hisolates⟩ := hinner hmembers hbody
      rw [ownMethods_of_isMethod hmethod, List.nil_append]
      exact ⟨.within context row, content, _, rfl, isolates_members hmethod hopen hisolates⟩
  · obtain ⟨context, content, later, rfl, hisolates⟩ := hrow hrest hbody
    exact ⟨.behind .brace inner context, content, later, rfl,
      isolates_rest (fun _ hmem _ _ hspan ↦ hinner.stop_le hdraft hmem hspan) hisolates⟩

end HasHoles

/-- A method with a block stands around a hole of its row. -/
theorem hasHoles (row : Row) (place : Place) (course : Course) {draft : Draft}
    (hdraft : draft.Blockless) :
    HasHoles (fun row ↦ read course draft (row.forest place)) place row := by
  induction row generalizing place course draft with
  | empty =>
    intro inType docs front rest method hmethods hbody
    obtain ⟨closed, hclosed, hclose⟩ := close_blockless hdraft
    obtain ⟨more, docs', hmore, happend⟩ := (isPrelude_append hclosed).methods inType docs
    have hread : (draft.close empty).methods inType docs = front ++ method :: rest := hmethods
    rw [hclose, happend] at hread
    have hmem : method ∈ more ++ empty.methods inType docs' := hread ▸ by simp
    exact absurd (hmore method (by simpa [methods] using hmem)) hbody
  | single lexeme row ih =>
    obtain ⟨front, next, draft', hfront, hdraft', hread⟩ :=
      read_leaf_front course hdraft (lexeme.at place) (row.forest (place.after lexeme.chars))
    have hwrap := isPrelude_append hfront
    refine (ih (place.after lexeme.chars) next hdraft').wrap hwrap (.single lexeme)
      (.single lexeme) (fun _ _ ↦ rfl) (fun _ ↦ rfl) (hread _ rfl) ?_
    rintro context content other rfl
    exact hread _ (context.face_plug _ _ _ _)
  | group bracket inner row ihInner ihRow =>
    cases hready : (course.step (Sign.ofGroup (bracket.opening.at place)
      (inner.forest (place.after bracket.opening.chars)))
      (row.forest (((place.after bracket.opening.chars).after inner.chars).after
        bracket.closing.chars))).course.isReady with
    | false =>
      obtain ⟨front, next, draft', hfront, hdraft', hread⟩ :=
        read_group_front hdraft _ _ (some (bracket.closing.at
          ((place.after bracket.opening.chars).after inner.chars))) _ hready
      have hwrap := isPrelude_append hfront
      refine (ihRow _ next hdraft').wrap hwrap (.group bracket inner)
        (.behind bracket inner) (fun _ _ ↦ rfl) (fun _ ↦ rfl) (hread _ rfl) ?_
      rintro context content other rfl
      exact hread _ (context.face_plug _ _ _ _)
    | true =>
      obtain rfl := Course.eq_brace_of_isReady hready
      obtain ⟨front, next, draft', inside, hfront, hdraft', hread⟩ :=
        read_braces_front hdraft _ _ _ hready
      have hwrap := isPrelude_append hfront
      have hblock : HasHoles (blockOf draft' inside next place) place (.group .brace inner row) :=
        (ihInner place.inside { content := .members } blockless_new).block hdraft'
          (ihRow (place.past inner) next blockless_new)
      refine hblock.wrap hwrap id id (fun _ _ ↦ rfl) (fun _ ↦ rfl) (hread _ _ _ rfl) ?_
      rintro context content other hrow
      cases context with
      | hole rest =>
        obtain ⟨-, rfl, rfl⟩ := Row.group.inj hrow
        exact hread _ _ _ (Row.face_forest _ _ _)
      | single lexeme context => contradiction
      | behind bracket inner context =>
        obtain ⟨rfl, rfl, rfl⟩ := Row.group.inj hrow
        exact hread _ _ _ (context.face_plug _ _ _ _)
      | within context rest =>
        obtain ⟨-, rfl, rfl⟩ := Row.group.inj hrow
        exact hread _ _ _ (Row.face_forest _ _ _)

end Outline

end Conform.Source
