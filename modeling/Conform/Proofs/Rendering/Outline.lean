import Conform.Proofs.Rendering.Layout
import Conform.Source.Method
import Mathlib.Tactic.SplitIfs

/-!
The outline of generated files. A header is read word by word into the draft of a declaration, which
its braces complete; what the braces of a method hold stays closed. So a file declares its namespace
and nothing but one class, and the methods of the class are those that were written, each with its
comments and with the span of its braces (`File.structure_eq`).
-/

set_option autoImplicit false

namespace Conform.Rendering

open Source

/-! ### Steps of reading -/

/-- The course of members with a declaration begun. -/
def within (phrase : Phrase) : Course :=
  { content := .members, phase := .phrase phrase }

/-- A declaration of which a header has been read. -/
def drafted (header : Header) : Draft :=
  { reversed := header.reverse }

/-- The token of a word at a place. -/
def wordAt (chars : List Char) (place : Place) : Token :=
  ⟨.word, String.ofList chars, place.byte, place.row⟩

def blankAt (chars : List Char) (place : Place) : Token :=
  ⟨.blank, String.ofList chars, place.byte, place.row⟩

def dotAt (place : Place) : Token :=
  ⟨.mark, ".", place.byte, place.row⟩

def parametersAt (place : Place) : Piece :=
  .group (Bracket.round.opening.at place) [] (some (Bracket.round.closing.at (place.after ['('])))

section Steps

variable {kind : Lexeme.Kind} {chars : List Char} {rest : Row} {place : Place} {header : Header}
  {phrase next : Phrase}

theorem add_drafted {piece : Piece} (hsemicolon : piece.isMark ";" = false)
    (hvalue : piece.isMark "=" = false) (harrow : piece.isMark "=>" = false) :
    (drafted header).add piece = drafted (header ++ [piece]) := by
  simp [drafted, Draft.add, hsemicolon, hvalue, harrow]

theorem declare_drafted (header : Header) (ending : Ending) (members rest : Outline) :
    (drafted header).declare ending members rest = .declaration header ending members rest := by
  rw [drafted, Draft.declare, List.reverse_reverse]
  rfl

/-- Between two declarations blanks are passed over. -/
theorem read_blank (rest : Row) (chars : List Char) (place : Place) :
    Outline.read { content := .members } {} ((put .blank chars rest).forest place) =
      Outline.read { content := .members } {} (rest.forest (place.after chars)) := by
  rw [forest_put]
  rfl

/-- Between two declarations comments are kept. -/
theorem read_comment (rest : Row) (chars : List Char) (place : Place) :
    Outline.read { content := .members } {} ((put .comment chars rest).forest place) =
      .comment ⟨.comment, String.ofList chars, place.byte, place.row⟩
        (Outline.read { content := .members } {} (rest.forest (place.after chars))) := by
  rw [forest_put]
  rfl

/-- In a header blanks are a part of it. -/
theorem read_blank_within (rest : Row) (chars : List Char) (place : Place) (header : Header)
    (phrase : Phrase) :
    Outline.read (within phrase) (drafted header) ((put .blank chars rest).forest place) =
      Outline.read (within phrase)
        (drafted (header ++ [.token (blankAt chars place)]))
        (rest.forest (place.after chars)) := by
  rw [forest_put, ← add_drafted rfl rfl rfl]
  rfl

theorem ofToken_word (hnumber : ∀ c ∈ chars.head?, c.isDigit = false) (forest : Forest) :
    Sign.ofToken (wordAt chars place) forest = .word (String.ofList chars) forest.firstText := by
  have hword : (wordAt chars place).isNumber = false := by
    rw [Token.isNumber, wordAt, String.toList_ofList]
    cases chars with
    | nil => rfl
    | cons c tail => simp [hnumber c rfl]
  simp only [wordAt] at hword
  simp only [Sign.ofToken, wordAt, hword, Bool.false_eq_true, if_false]

/-- Assumes: a sign that takes the course into a header. The token belongs to the header. -/
theorem read_leaf {course : Course} {token : Token} {forest : Forest}
    (hstep : course.step (Sign.ofToken token forest) forest = { course := within next })
    (hmark : ∀ text ∈ [";", "=", "=>"], token.isMark text = false) :
    Outline.read course (drafted header) (.leaf token forest) =
      Outline.read (within next) (drafted (header ++ [.token token])) forest := by
  have hadd : (drafted header).add (.token token) = drafted (header ++ [.token token]) :=
    add_drafted (hmark _ (by decide)) (hmark _ (by decide)) (hmark _ (by decide))
  rw [← hadd, Outline.read, hstep]
  rfl

/-- A word that goes on with a header. -/
theorem read_word_within {text : String} (hnumber : ∀ c ∈ chars.head?, c.isDigit = false)
    (htext : (rest.forest (place.after chars)).firstText = text)
    (hnext : phrase.afterWord? (String.ofList chars) text = some next) :
    Outline.read (within phrase) (drafted header) ((put .word chars rest).forest place) =
      Outline.read (within next)
        (drafted (header ++ [.token (wordAt chars place)]))
        (rest.forest (place.after chars)) := by
  have hstep : (within phrase).step
      (Sign.ofToken (wordAt chars place) (rest.forest (place.after chars)))
      (rest.forest (place.after chars)) = { course := within next } := by
    rw [ofToken_word hnumber, htext]
    simp only [Course.step, Course.advance, within, Phrase.next?, hnext]
  rw [forest_put]
  exact read_leaf hstep fun _ _ ↦ rfl

/-- A word that begins a header. -/
theorem read_word {text : String} (hnumber : ∀ c ∈ chars.head?, c.isDigit = false)
    (htext : (rest.forest (place.after chars)).firstText = text)
    (hwhile : String.ofList chars ≠ "while")
    (hstart : Course.startPhase? .ready (String.ofList chars) text = none)
    (hnext : (Phrase.start .members).afterWord? (String.ofList chars) text = some next) :
    Outline.read { content := .members } {} ((put .word chars rest).forest place) =
      Outline.read (within next)
        (drafted [.token (wordAt chars place)])
        (rest.forest (place.after chars)) := by
  have hstep : Course.step { content := .members }
      (Sign.ofToken (wordAt chars place) (rest.forest (place.after chars)))
      (rest.forest (place.after chars)) = { course := within next } := by
    rw [ofToken_word hnumber, htext]
    simp only [Course.step, Course.advance, Course.begin, hwhile, hstart, Phrase.next?, hnext]
    rfl
  have hread := @read_leaf [] next _ _ _ hstep fun _ _ ↦ rfl
  rw [forest_put]
  exact hread

/-- The dot in a name. -/
theorem read_dot_within :
    Outline.read (within phrase) (drafted header) ((put .mark ['.'] rest).forest place) =
      Outline.read (within (phrase.afterMark "."))
        (drafted (header ++ [.token (dotAt place)]))
        (rest.forest (place.after ['.'])) := by
  rw [forest_put]
  refine read_leaf rfl ?_
  simp only [Token.isMark]
  decide

/-- Assumes: a header that begins with a word no method begins with. -/
theorem methodName?_eq_none {first : Piece} {rest : List Piece}
    (hcore : Header.core header = first :: rest) (hround : first.isRound = false)
    (hother : ∀ rest, Header.isOtherKind first rest = true) : Header.methodName? header = none := by
  have hparts : Header.unconstrained (first :: rest) = first :: Header.unconstrained rest := by
    rw [Header.unconstrained, hround, Bool.false_and, if_neg Bool.false_ne_true]
  unfold Header.methodName?
  rw [hcore, hparts]
  dsimp only
  split
  · rfl
  · split
    case h_1 hcons _ =>
      obtain ⟨rfl, -⟩ := List.cons.inj hcons
      rw [hother, Bool.or_true, if_pos rfl]
    case h_2 => rfl

theorem forest_group (bracket : Bracket) (inner rest : Row) (place : Place) :
    (Row.group bracket inner rest).forest place =
      .group (bracket.opening.at place) (inner.forest (place.after bracket.opening.chars))
        (some (bracket.closing.at (place.after (bracket.opening.chars ++ inner.chars))))
        (rest.forest
          (place.after (bracket.opening.chars ++ inner.chars ++ bracket.closing.chars))) := by
  simp only [Row.forest, Place.after_append]

/-- An empty parameter list. -/
theorem read_parameters (hlisted : phrase.isListed = false) :
    Outline.read (within phrase) (drafted header)
        ((Row.group .round .empty rest).forest place) =
      Outline.read (within (phrase.afterRound false)) (drafted (header ++ [parametersAt place]))
        (rest.forest (place.after ['(', ')'])) := by
  have hsign : Sign.ofGroup (Bracket.round.opening.at place) (Forest.empty) = .round false := rfl
  rw [forest_group, ← add_drafted rfl rfl rfl, Outline.read]
  simp only [Row.forest, hsign, Course.step, Course.advance, within, Phrase.next?, hlisted]
  rfl

/-- Braces that complete a declaration. -/
theorem read_braces {inside : Content} {inner : Row}
    (hbraces : phrase.braces? = some (inside, none)) :
    Outline.read (within phrase) (drafted header) ((Row.group .brace inner rest).forest place) =
      .declaration header
        (.block (Bracket.brace.opening.at place) (inner.forest (place.after ['\x7b']))
          (some (Bracket.brace.closing.at (place.after ('\x7b' :: inner.chars)))))
        (if inside = .members && (Header.methodName? header).isNone then
          Outline.read { content := .members } {} (inner.forest (place.after ['\x7b']))
        else .empty)
        (Outline.read { content := .members } {}
          (rest.forest (place.after ('\x7b' :: (inner.chars ++ ['\x7d']))))) := by
  rw [forest_group, Outline.read]
  have hsign : Sign.ofGroup (Bracket.brace.opening.at place)
    (inner.forest (place.after Bracket.brace.opening.chars)) = .brace := rfl
  have hmethod : (drafted header).isMethod = (Header.methodName? header).isSome := by
    rw [Draft.isMethod, drafted, List.reverse_reverse]
  simp only [hsign, Course.step, Course.advance, within, hbraces, Bool.false_eq_true, if_false,
    hmethod, Option.not_isSome]
  exact declare_drafted header _ _ _

/-- Braces that complete a declaration and hold members. -/
theorem read_members {inner : Row} (hbraces : phrase.braces? = some (.members, none))
    (hmethod : Header.methodName? header = none) :
    Outline.read (within phrase) (drafted header) ((Row.group .brace inner rest).forest place) =
      .declaration header
        (.block (Bracket.brace.opening.at place) (inner.forest (place.after ['\x7b']))
          (some (Bracket.brace.closing.at (place.after ('\x7b' :: inner.chars)))))
        (Outline.read { content := .members } {} (inner.forest (place.after ['\x7b'])))
        (Outline.read { content := .members } {}
          (rest.forest (place.after ('\x7b' :: (inner.chars ++ ['\x7d']))))) := by
  rw [read_braces hbraces, hmethod]
  rfl

end Steps

/-! ### Phrases of headers -/

/-- Behind modifiers. -/
def modified : Phrase :=
  { header := true, term := false }

theorem afterWord?_private (next : String) :
    (Phrase.start .members).afterWord? "private" next = some modified := rfl

theorem afterWord?_public (next : String) :
    (Phrase.start .members).afterWord? "public" next = some modified := rfl

theorem afterWord?_partial : modified.afterWord? "partial" "class" = some modified := by
  decide

theorem afterWord?_void (next : String) :
    modified.afterWord? "void" next = some modified.closed := rfl

/-- A name behind a type is declared, whatever name it is. -/
theorem afterWord?_declared {text : String} (hfree : Keyword.isReserved text = false) :
    modified.closed.afterWord? text "(" = some modified.closed.declared := by
  simp [Keyword.isReserved, Keyword.types, Keyword.values, Keyword.leading] at hfree
  simp [Phrase.afterWord?, Phrase.closedWord?, Phrase.closed, modified, Phrase.declared, hfree,
    Keyword.isReserved, Keyword.types, Keyword.values, Keyword.leading]

/-- A phrase that names a namespace or a class. -/
structure Naming (phrase : Phrase) : Prop where
  header : phrase.header = true
  body : phrase.body = some .members
  lead : phrase.lead = false
  constrained : phrase.constrained = false
  stage : phrase.stage = .type

theorem openWord_name {phrase : Phrase} {text next : String}
    (hfree : Keyword.isReserved text = false) (hawait : text ≠ "await")
    (hnext : Phrase.startsWith Phrase.isWordStart next = false)
    (hconstrained : phrase.constrained = false) :
    phrase.openWord text next = phrase.awaiting ∨
      phrase.openWord text next = { phrase.closed with path := false } ∨
      phrase.openWord text next = phrase.closed := by
  have hword : phrase.openWord text next =
      if Keyword.contextual.contains text && Phrase.leadsOn text next then phrase.awaiting
      else if text = "var" then { phrase.closed with path := false } else phrase.closed := by
    simp [Keyword.isReserved, Keyword.leading, Keyword.values] at hfree
    simp [Phrase.openWord, Keyword.leading, Keyword.values, hconstrained, hfree, hawait, hnext]
  rw [hword]
  split_ifs
  · exact .inl rfl
  · exact .inr (.inl rfl)
  · exact .inr (.inr rfl)

namespace Naming

variable {phrase : Phrase}

theorem awaiting (hnaming : Naming phrase) : Naming phrase.awaiting :=
  ⟨hnaming.header, hnaming.body, rfl, hnaming.constrained, hnaming.stage⟩

/-- A name goes on with what names. -/
theorem afterWord? (hnaming : Naming phrase) (hposture : phrase.posture = .wanting)
    {text next : String} (hfree : Keyword.isReserved text = false) (hawait : text ≠ "await")
    (hnext : Phrase.startsWith Phrase.isWordStart next = false) :
    ∃ named, phrase.afterWord? text next = some named ∧ Naming named := by
  refine ⟨phrase.openWord text next, ?_, ?_⟩
  · simp [Phrase.afterWord?, hposture, hnaming.stage]
  · obtain ⟨hheader, hbody, -, hconstrained, hstage⟩ := hnaming
    rcases openWord_name hfree hawait hnext hconstrained with h | h | h <;> rw [h] <;>
      exact ⟨hheader, hbody, rfl, hconstrained, hstage⟩

theorem afterDot (hnaming : Naming phrase) :
    Naming (phrase.afterMark ".") ∧ (phrase.afterMark ".").posture = .wanting := by
  have hmark : phrase.afterMark "." = phrase.awaiting := by
    simp [Phrase.afterMark, Phrase.valued, Phrase.awaiting, hnaming.header]
  rw [hmark]
  exact ⟨hnaming.awaiting, rfl⟩

theorem braces? (hnaming : Naming phrase) : phrase.braces? = some (.members, none) := by
  simp [Phrase.braces?, hnaming.lead, hnaming.header, hnaming.body]

end Naming

theorem Identifier.isDigit_head (identifier : Identifier) :
    ∀ c ∈ identifier.chars.head?, c.isDigit = false := by
  obtain ⟨chars, hname, -⟩ := identifier
  cases chars with
  | nil => exact fun c hc ↦ nomatch hc
  | cons c rest =>
    intro d hd
    obtain rfl : c = d := Option.some.inj hd
    rw [Rendering.isName] at hname
    split at hname
    case isTrue hat => rw [hat]; decide
    case isFalse =>
      rw [isPlainName, Bool.and_eq_true, Bool.not_eq_true'] at hname
      exact hname.1

/-! ### Headers -/

/-- The header of a method that starts at a place. -/
def Method.headerAt (method : Method) (place : Place) : Header :=
  let named := place.after "private void ".toList
  let called := named.after method.identifier.chars
  [.token (wordAt "private".toList place),
    .token (blankAt " ".toList (place.after "private".toList)),
    .token (wordAt "void".toList (place.after "private ".toList)),
    .token (blankAt " ".toList (place.after "private void".toList)),
    .token (wordAt method.identifier.chars named), parametersAt called,
    .token (blankAt "\n\t\t".toList (called.after "()".toList))]

/-- A method is read as the declaration that was written. -/
theorem Method.read_declarationRow (method : Method) (rest : Row) (place : Place) :
    Outline.read { content := .members } {} ((method.declarationRow rest).forest place) =
      .declaration (method.headerAt place)
        (.block (Bracket.brace.opening.at (place.after method.headChars))
          ((bodyRow method.body).forest (place.after (method.headChars ++ ['\x7b'])))
          (some (Bracket.brace.closing.at
            (place.after (method.headChars ++ '\x7b' :: (bodyRow method.body).chars)))))
        .empty
        (Outline.read { content := .members } {} (rest.forest (place.after
          (method.headChars ++ '\x7b' :: ((bodyRow method.body).chars ++ ['\x7d']))))) := by
  unfold Method.declarationRow
  refine (read_word (by decide) rfl (by decide) rfl (afterWord?_private _)).trans ?_
  refine (read_blank_within ..).trans ?_
  refine (read_word_within (by decide) rfl (afterWord?_void _)).trans ?_
  refine (read_blank_within ..).trans ?_
  refine (read_word_within method.identifier.isDigit_head rfl
    (afterWord?_declared method.identifier.isFree)).trans ?_
  refine (read_parameters rfl).trans ?_
  refine (read_blank_within ..).trans ?_
  have hbraces : (modified.closed.declared.afterRound false).braces? =
      some (.statements, none) := rfl
  refine (read_braces hbraces).trans ?_
  unfold Method.headerAt Method.headChars
  simp [← Place.after_append]

section HeaderAt

variable (method : Method) (place : Place)

theorem Method.core_headerAt :
    Header.core (method.headerAt place) =
      [.token (wordAt "void".toList (place.after "private ".toList)),
        .token (wordAt method.identifier.chars (place.after "private void ".toList)),
        parametersAt ((place.after "private void ".toList).after method.identifier.chars)] := rfl

theorem Method.methodName?_headerAt :
    Header.methodName? (method.headerAt place) = some method.identifier.text := by
  have hoperator : (method.identifier.text == "operator") = false := by
    have hfree : Keyword.isReserved method.identifier.text = false := method.identifier.isFree
    refine beq_false_of_ne fun htext ↦ ?_
    rw [htext] at hfree
    exact absurd hfree (by decide)
  have hword : ∀ named, (Piece.token (wordAt method.identifier.chars named)).isWord "operator" =
      false := fun _ ↦ hoperator
  have hmark : ∀ named text, (Piece.token (wordAt method.identifier.chars named)).isMark text =
      false := fun _ _ ↦ rfl
  unfold Header.methodName?
  rw [Method.core_headerAt]
  generalize place.after "private ".toList = typed, place.after "private void ".toList = named
  have hparts (type name : Piece) (htype : type.isRound = false) (hname : name.isRound = false) :
      Header.unconstrained [type, name, parametersAt (named.after method.identifier.chars)] =
        [type, name, parametersAt (named.after method.identifier.chars)] := by
    simp [Header.unconstrained, htype, hname]
  rw [hparts _ _ rfl rfl]
  simp only [List.any_cons, List.any_nil, hword, hmark]
  rfl

theorem Method.spaceName?_headerAt : Header.spaceName? (method.headerAt place) = none := by
  unfold Header.spaceName?
  rw [Method.core_headerAt]
  rfl

end HeaderAt

/-! ### Comments and methods -/

/-- The method that is found where a method is written. -/
def Method.foundAt (method : Method) (place : Place) : Source.Method :=
  let start := place.after method.commentChars
  let opening := start.after method.headChars
  let inside := opening.after ['\x7b']
  { identifier := method.identifier.text
    line := start.row + 1
    body := .block ⟨opening.byte, (inside.after (bodyRow method.body).chars).byte + 1⟩
      ((bodyRow method.body).forest inside).statements?
    docs := method.comments.map String.ofList }

/-- The methods that are found where methods are written. -/
def foundAt (gap : List Char) (place : Place) : List Method → List Source.Method
  | [] => []
  | method :: rest =>
    let start := place.after (gap ++ "\t\t".toList)
    method.foundAt start :: foundAt "\n\n".toList (start.after method.writtenChars) rest

/-- What an outline in a type tells, below some documentation comments. -/
def told (docs : List String) (outline : Outline) :
    List String × List String × List Source.Method :=
  (outline.spaceNames, outline.imports, outline.methods true docs)

theorem told_commentsRow {comments : List (List Char)} {rest : Row}
    (hcomments : ∀ comment ∈ comments, "///".toList.isPrefixOf comment = true)
    (docs : List String) (place : Place) :
    told docs (Outline.read { content := .members } {} ((commentsRow rest comments).forest place)) =
      told (docs ++ comments.map String.ofList) (Outline.read { content := .members } {}
        (rest.forest (place.after (comments.flatMap (· ++ "\n\t\t".toList))))) := by
  induction comments generalizing docs place with
  | nil => rw [List.map_nil, List.append_nil]; rfl
  | cons comment comments ih =>
    rw [List.forall_mem_cons] at hcomments
    have hdoc : Token.isDoc ⟨.comment, String.ofList comment, place.byte, place.row⟩ = true := by
      change ("///".toList.isPrefixOf (String.ofList comment).toList || _) = true
      rw [String.toList_ofList (l := comment), hcomments.1, Bool.true_or]
    rw [commentsRow, read_comment, read_blank, told, Outline.spaceNames, Outline.imports,
      Outline.methods, if_pos hdoc]
    refine (ih hcomments.2 (docs ++ [String.ofList comment]) _).trans ?_
    rw [List.map_cons, List.flatMap_cons, Place.after_append, Place.after_append,
      List.append_assoc, List.singleton_append]

theorem Method.isPrefixOf_comment {method : Method} {comment : List Char}
    (hcomment : comment ∈ method.comments) : "///".toList.isPrefixOf comment = true := by
  rw [Method.comments] at hcomment
  split at hcomment
  · exact absurd hcomment List.not_mem_nil
  · rw [List.mem_append, List.mem_append, List.mem_singleton, List.mem_singleton,
      List.mem_map] at hcomment
    rcases hcomment with (rfl | ⟨doc, -, rfl⟩) | rfl <;> rfl

theorem stop_closing (place : Place) : (Bracket.brace.closing.at place).stop = place.byte + 1 :=
  congrArg (place.byte + ·) (by decide : Text.bytes "\x7d".toList = 1)

theorem Method.ofDeclaration?_headerAt (method : Method) (docs : List String) (place : Place)
    (inner : Forest) :
    Source.Method.ofDeclaration? docs (method.headerAt place)
      (.block (Bracket.brace.opening.at (place.after method.headChars)) inner
        (some (Bracket.brace.closing.at
          (place.after (method.headChars ++ '\x7b' :: (bodyRow method.body).chars))))) =
    some {
      identifier := method.identifier.text
      line := place.row + 1
      body := .block ⟨(place.after method.headChars).byte,
        (((place.after method.headChars).after ['\x7b']).after
          (bodyRow method.body).chars).byte + 1⟩
        inner.statements?
      docs } := by
  rw [Source.Method.ofDeclaration?, method.methodName?_headerAt place, ← Place.after_append,
    ← Place.after_append, List.singleton_append, ← stop_closing]
  rfl

/-- A method tells of itself and of what follows it. -/
theorem told_row (method : Method) (rest : Row) (place : Place) {names imports : List String}
    {methods : List Source.Method}
    (htold : told [] (Outline.read { content := .members } {}
      (rest.forest (place.after method.writtenChars))) = (names, imports, methods)) :
    told [] (Outline.read { content := .members } {} ((method.row rest).forest place)) =
      (names, imports, method.foundAt place :: methods) := by
  rw [Method.writtenChars, Method.commentChars, Place.after_append] at htold
  rw [Method.row, told_commentsRow (fun _ ↦ Method.isPrefixOf_comment), List.nil_append,
    method.read_declarationRow]
  simp only [told, Outline.spaceNames, Outline.imports, Outline.methods, Prod.mk.injEq,
    if_true] at htold ⊢
  obtain ⟨hnames, himports, hmethods⟩ := htold
  rw [method.spaceName?_headerAt, method.ofDeclaration?_headerAt, hnames, himports, hmethods,
    Place.after_append _ method.headChars]
  exact ⟨rfl, rfl, rfl⟩

/-- Methods tell of themselves and of nothing else. -/
theorem told_methodsRow (gap : List Char) (methods : List Method) (place : Place) :
    told [] (Outline.read { content := .members } {} ((methodsRow gap methods).forest place)) =
      ([], [], foundAt gap place methods) := by
  induction methods generalizing gap place with
  | nil => rw [methodsRow, read_blank]; rfl
  | cons method rest ih => rw [methodsRow, read_blank, told_row method _ _ (ih _ _)]; rfl

/-! ### The class and the namespace -/

/-- The header of a class that starts at a place. -/
def File.classHeaderAt (file : File) (place : Place) : Header :=
  [.token (wordAt "public".toList place), .token (blankAt " ".toList (place.after "public".toList)),
    .token (wordAt "partial".toList (place.after "public ".toList)),
    .token (blankAt " ".toList (place.after "public partial".toList)),
    .token (wordAt "class".toList (place.after "public partial ".toList)),
    .token (blankAt " ".toList (place.after "public partial class".toList)),
    .token (wordAt file.name.chars (place.after "public partial class ".toList)),
    .token (blankAt "\n\t".toList
      ((place.after "public partial class ".toList).after file.name.chars))]

theorem naming_class : Naming { modified with body := some .members } :=
  ⟨rfl, rfl, rfl, rfl, rfl⟩

/-- What stands between the braces of a namespace up to the brace of its class. -/
def File.classChars (file : File) : List Char :=
  "\n\tpublic partial class ".toList ++ file.name.chars ++ "\n\t".toList

theorem File.read_classRow (file : File) (place : Place) :
    Outline.read { content := .members } {} (file.classRow.forest place) =
      .declaration (file.classHeaderAt (place.after "\n\t".toList))
        (.block (Bracket.brace.opening.at (place.after file.classChars))
          ((methodsRow "\n".toList file.methods).forest (place.after (file.classChars ++ ['\x7b'])))
          (some (Bracket.brace.closing.at (place.after
            (file.classChars ++ '\x7b' :: (methodsRow "\n".toList file.methods).chars)))))
        (Outline.read { content := .members } {}
          ((methodsRow "\n".toList file.methods).forest
            (place.after (file.classChars ++ ['\x7b']))))
        .empty := by
  have hbrace : Phrase.startsWith Phrase.isWordStart "\x7b" = false := by decide
  obtain ⟨named, hword, hnaming⟩ := naming_class.afterWord? rfl file.name.isFree
    (file.isPlain file.name List.mem_cons_self) hbrace
  refine (read_blank ..).trans ?_
  refine (read_word (by decide) rfl (by decide) rfl (afterWord?_public _)).trans ?_
  refine (read_blank_within ..).trans ?_
  refine (read_word_within (by decide) rfl afterWord?_partial).trans ?_
  refine (read_blank_within ..).trans ?_
  refine (read_word_within (by decide) rfl rfl).trans ?_
  refine (read_blank_within ..).trans ?_
  refine (read_word_within file.name.isDigit_head rfl hword).trans ?_
  refine (read_blank_within ..).trans ?_
  refine (read_members hnaming.braces? (methodName?_eq_none rfl rfl fun _ ↦ rfl)).trans ?_
  rw [read_blank]
  unfold File.classHeaderAt File.classChars
  simp [← Place.after_append]
  rfl

/-- Pieces of a header that write a text and no blank. -/
def Spell (pieces : List Piece) (chars : List Char) : Prop :=
  (∀ piece ∈ pieces, piece.isTrivia = false) ∧
    (pieces.flatMap Piece.tokens).flatMap (·.text.toList) = chars

theorem spell_word (chars : List Char) (place : Place) :
    Spell [.token (wordAt chars place)] chars :=
  ⟨List.forall_mem_singleton.mpr rfl, by simp [Piece.tokens, wordAt]⟩

theorem firstText_dot (rest : Row) (place : Place) :
    ((put .mark ['.'] rest).forest place).firstText = "." := by
  rw [forest_put]
  rfl

theorem spell_dot (place : Place) : Spell [.token (dotAt place)] ['.'] :=
  ⟨List.forall_mem_singleton.mpr rfl, by simp [Piece.tokens, dotAt]⟩

theorem Spell.append {pieces others : List Piece} {front back : List Char}
    (hpieces : Spell pieces front) (hothers : Spell others back) :
    Spell (pieces ++ others) (front ++ back) := by
  refine ⟨List.forall_mem_append.mpr ⟨hpieces.1, hothers.1⟩, ?_⟩
  rw [List.flatMap_append, List.flatMap_append, hpieces.2, hothers.2]

/-- The blanks around a text are not written. -/
theorem Spell.written {pieces : List Piece} {chars : List Char} (hpieces : Spell pieces chars)
    (hne : pieces ≠ []) (before after : Place) (gap behind : List Char) :
    Header.written (.token (blankAt gap before) :: (pieces ++ [.token (blankAt behind after)])) =
      String.ofList chars := by
  have hstart : ∀ pieces : List Piece, pieces ≠ [] → (∀ piece ∈ pieces, piece.isTrivia = false) →
      ∀ others, (pieces ++ others).dropWhile Piece.isTrivia = pieces ++ others := by
    intro pieces hne htrivia others
    obtain ⟨piece, pieces, rfl⟩ := List.exists_cons_of_ne_nil hne
    rw [List.cons_append, List.dropWhile_cons_of_neg (by simp [htrivia piece])]
  have hreversed := hstart pieces.reverse (by simpa using hne) (by simpa using hpieces.1) []
  have hblank : ∀ gap place, (Piece.token (blankAt gap place)).isTrivia = true := fun _ _ ↦ rfl
  rw [Header.written, List.dropWhile_cons_of_pos (hblank gap before), hstart pieces hne hpieces.1,
    List.reverse_append, List.reverse_singleton, List.singleton_append,
    List.dropWhile_cons_of_pos (hblank behind after)]
  rw [List.append_nil] at hreversed
  rw [hreversed, List.reverse_reverse, ← hpieces.2, ← String.toList_inj, String.toList_join,
    String.toList_ofList, List.flatMap_map]

/-- The name of a namespace is read up to the braces behind it. -/
theorem read_spaceRow {space : List Identifier} (rest : Row)
    (hspace : space ≠ []) (hawait : ∀ identifier ∈ space, identifier.text ≠ "await")
    (hrest : ∀ place, (rest.forest place).firstText = "\x7b") {phrase : Phrase}
    (hnaming : Naming phrase) (hposture : phrase.posture = .wanting) (header : Header)
    (place : Place) :
    ∃ named pieces, Naming named ∧ pieces ≠ [] ∧
      Spell pieces (['.'].intercalate (space.map Identifier.chars)) ∧
      Outline.read (within phrase) (drafted header) ((spaceRow rest space).forest place) =
        Outline.read (within named) (drafted (header ++ pieces))
          (rest.forest (place.after (['.'].intercalate (space.map Identifier.chars)))) := by
  fun_induction spaceRow rest space generalizing phrase header place with
  | case1 => exact absurd rfl hspace
  | case2 last =>
    obtain ⟨named, hword, hnamed⟩ := hnaming.afterWord? hposture last.isFree
      (hawait last List.mem_cons_self) (by decide : Phrase.startsWith _ "\x7b" = false)
    have htext : ['.'].intercalate ([last].map Identifier.chars) = last.chars := by
      simp [List.intercalate]
    rw [htext]
    refine ⟨named, _, hnamed, List.cons_ne_nil _ _, spell_word last.chars place, ?_⟩
    exact read_word_within last.isDigit_head (hrest _) hword
  | case3 first second others ih =>
    rw [List.forall_mem_cons] at hawait
    obtain ⟨named, hword, hnamed⟩ := hnaming.afterWord? hposture first.isFree
      hawait.1 (by decide : Phrase.startsWith _ "." = false)
    have htext : ['.'].intercalate ((first :: second :: others).map Identifier.chars) =
        first.chars ++ (['.'] ++ ['.'].intercalate ((second :: others).map Identifier.chars)) := by
      simp [List.intercalate]
    obtain ⟨last, pieces, hlast, -, hspell, hread⟩ := ih (List.cons_ne_nil _ _) hawait.2
      hnamed.afterDot.1 hnamed.afterDot.2
      (header ++ [.token (wordAt first.chars place)] ++
        [.token (dotAt (place.after first.chars))])
      ((place.after first.chars).after ['.'])
    rw [htext, Place.after_append, Place.after_append]
    refine ⟨last, [.token (wordAt first.chars place)] ++
      ([.token (dotAt (place.after first.chars))] ++ pieces), hlast, List.cons_ne_nil _ _,
        (spell_word first.chars place).append ((spell_dot _).append hspell), ?_⟩
    refine (read_word_within first.isDigit_head (firstText_dot _ _) hword).trans
      (read_dot_within.trans ?_)
    rw [hread]
    simp only [List.append_assoc]

/-- Behind the word that begins a namespace. -/
def spacing : Phrase :=
  { header := true, body := some .members, path := true }

theorem afterWord?_namespace (next : String) :
    (Phrase.start .members).afterWord? "namespace" next = some spacing := rfl

theorem naming_spacing : Naming spacing :=
  ⟨rfl, rfl, rfl, rfl, rfl⟩

theorem startPhase?_namespace {next : String} (hnext : next ≠ ":") :
    Course.startPhase? .ready "namespace" next = none := by
  simp [Course.startPhase?, hnext]

theorem Identifier.text_ne_colon (identifier : Identifier) : identifier.text ≠ ":" := by
  intro htext
  have hchars : identifier.chars = [':'] := by
    rw [← String.toList_ofList (l := identifier.chars)]
    exact congrArg String.toList htext
  exact absurd (hchars ▸ isWholeWord_of_isName identifier.isName) (by decide)

theorem firstText_spaceRow (first : Identifier) (others : List Identifier) (rest : Row)
    (place : Place) :
    ((spaceRow rest (first :: others)).forest place).firstText = first.text := by
  cases others <;> rw [spaceRow, forest_put] <;> rfl

/-- What stands in front of the first method of a file. -/
def File.frontChars (file : File) : List Char :=
  "namespace ".toList ++ (file.spaceChars ++ ('\n' :: '\x7b' :: (file.classChars ++ ['\x7b'])))

def File.spaceText (file : File) : String :=
  String.ofList file.spaceChars

theorem File.exists_read_row (file : File) :
    ∃ header opening inner closing, Header.spaceName? header = some file.spaceText ∧
      Header.isType header = false ∧
      Outline.ofForest (file.row.forest {}) = .declaration header (.block opening inner closing)
        (Outline.read { content := .members } {} (file.classRow.forest
          (Place.after {} ("namespace ".toList ++ (file.spaceChars ++ ['\n', '\x7b'])))))
        .empty := by
  obtain ⟨first, others, hspace⟩ := List.exists_cons_of_ne_nil file.isNamed
  have hawait : ∀ identifier ∈ file.space, identifier.text ≠ "await" := fun identifier hmem ↦
    file.isPlain identifier (List.mem_cons_of_mem _ hmem)
  have hfirst : ∀ rest place,
      ((put .blank " ".toList (spaceRow rest file.space)).forest place).firstText = first.text := by
    intro rest place
    rw [forest_put, hspace]
    exact firstText_spaceRow first others rest _
  let start : Place := {}
  let spaced := (start.after "namespace".toList).after " ".toList
  let named := spaced.after file.spaceChars
  let opening := named.after "\n".toList
  let front : Header := [.token (wordAt "namespace".toList start),
    .token (blankAt " ".toList (start.after "namespace".toList))]
  obtain ⟨phrase, pieces, hnaming, hne, hspell, hread⟩ := read_spaceRow
    (put .blank "\n".toList (.group .brace file.classRow (put .blank "\n".toList .empty)))
    file.isNamed hawait (fun _ ↦ rfl) naming_spacing rfl front spaced
  have hwritten : Header.spaceName? (front ++ pieces ++ [.token (blankAt "\n".toList named)]) =
      some file.spaceText :=
    congrArg some (hspell.written hne (start.after "namespace".toList) named " ".toList "\n".toList)
  refine ⟨front ++ pieces ++ [.token (blankAt "\n".toList named)],
    Bracket.brace.opening.at opening, file.classRow.forest (opening.after ['\x7b']),
    some (Bracket.brace.closing.at (opening.after ('\x7b' :: file.classRow.chars))),
    hwritten, rfl, ?_⟩
  have hnext := startPhase?_namespace first.text_ne_colon
  refine (read_word (by decide) (hfirst _ _) (by decide) hnext (afterWord?_namespace _)).trans ?_
  refine (read_blank_within ..).trans (hread.trans ?_)
  have hmethod : Header.methodName? (front ++ pieces ++ [.token (blankAt "\n".toList named)]) = none :=
    methodName?_eq_none rfl rfl fun _ ↦ rfl
  refine (read_blank_within ..).trans ((read_members hnaming.braces? hmethod).trans ?_)
  have hplace : opening.after ['\x7b'] =
      start.after ("namespace ".toList ++ (file.spaceChars ++ ['\n', '\x7b'])) := by
    simp [opening, named, spaced, ← Place.after_append]
  rw [← hplace]
  rfl

/-- What is found in a file: its namespace, and its methods where they were written. -/
theorem File.structure_eq (file : File) :
    let found := Structure.ofSource file.chars
    found.spaceNames = [file.spaceText] ∧ found.imports = [] ∧
      found.methods = foundAt "\n".toList (Place.after {} file.frontChars) file.methods := by
  obtain ⟨header, opening, inner, closing, hname, htype, hread⟩ := file.exists_read_row
  have hplace : (Place.after {} ("namespace ".toList ++ (file.spaceChars ++ ['\n', '\x7b']))).after
      (file.classChars ++ ['\x7b']) = Place.after {} file.frontChars := by
    rw [← Place.after_append]
    unfold File.frontChars
    simp only [List.append_assoc, List.cons_append, List.nil_append]
  have htold := told_methodsRow "\n".toList file.methods (Place.after {} file.frontChars)
  simp only [told, Prod.mk.injEq] at htold
  obtain ⟨hnames, himports, hmethods⟩ := htold
  have hclass : ∀ place, Header.spaceName? (file.classHeaderAt place) = none := fun _ ↦ rfl
  have hclassType : ∀ place, Header.isType (file.classHeaderAt place) = true := fun _ ↦ rfl
  simp only [Structure.ofSource, file.ofSource_chars, hread, file.read_classRow, Outline.spaceNames,
    Outline.imports, Outline.methods, hname, htype, hclass, hclassType, hplace, hnames, himports,
    hmethods]
  simp

end Conform.Rendering
