import Conform.Source.Sign

/-!
Phrases: what a statement or a declaration says up to its semicolon or its block. A phrase is
followed sign by sign, with just enough of the grammar to tell a sign that goes on with it from one
that cannot, before which a semicolon is missing.
-/

set_option autoImplicit false

namespace Conform.Source

/-- Whether a phrase may end where it stands. -/
inductive Phrase.Posture where
  /-- An operand, a type or a name is still to come. -/
  | wanting
  /-- Behind what may be a cast: an operand may follow as well as an operator. -/
  | cast
  /-- Behind a mark that ends type arguments or compares: either may follow as well. -/
  | compared
  /-- Nothing needs to follow, and no operand may. -/
  | complete
  deriving DecidableEq, Repr

/-- What the words of a phrase amount to so far. -/
inductive Phrase.Stage where
  /-- They may be a type, which a name may follow. -/
  | type
  /-- A type and a name. -/
  | named
  | value
  deriving DecidableEq, Repr

/-- Whether the phrase stands in a pattern, which one name may end. -/
inductive Phrase.Pattern where
  | absent
  | unnamed
  | named
  deriving DecidableEq, Repr

structure Phrase where
  posture : Phrase.Posture := .wanting
  stage : Phrase.Stage := .type
  pattern : Phrase.Pattern := .absent
  /-- Whether all of it belongs to the header of a declaration, so that a block ends it. -/
  header : Bool := false
  /-- What that block holds, if a keyword tells. -/
  body : Option Content := none
  /-- The number of type argument lists that are open. -/
  angles : Nat := 0
  /-- Whether a parameter or argument list has been met. -/
  called : Bool := false
  /-- Whether the constraints on type parameters have begun. -/
  constrained : Bool := false
  /-- Whether it names a namespace or what a using directive imports. -/
  path : Bool := false
  query : Bool := false
  /-- Whether braces may follow an operand, as behind `new`. -/
  braced : Bool := false
  /-- Whether braces would hold statements, as behind `=>`. -/
  lead : Bool := false
  /-- Whether it may be an expression and nothing else. -/
  term : Bool := true
  deriving DecidableEq, Repr

namespace Phrase

/-- The phrase that starts in a row of the given content. -/
def start : Content → Phrase
  | .members => { header := true }
  | .accessors => { header := true, stage := .value, body := some .statements }
  | _ => {}

/-- An operand has been met. -/
def closed (phrase : Phrase) : Phrase :=
  { phrase with posture := .complete, lead := false }

/-- No name may follow in the pattern. -/
def nameless (phrase : Phrase) : Phrase :=
  { phrase with pattern := if phrase.pattern = .unnamed then .named else phrase.pattern }

/-- An operand has to follow. -/
def awaiting (phrase : Phrase) : Phrase :=
  { phrase with posture := .wanting, lead := false }

/-- The words so far are a value. In a header operators may be names. -/
def valued (phrase : Phrase) : Phrase :=
  if phrase.header then phrase else { phrase with stage := .value }

/-- An operand has been met that is no type, and no type argument either. -/
def constant (phrase : Phrase) : Phrase :=
  { phrase.closed.valued.nameless with angles := 0 }

/-- A mark has been met that may be an operator or a part of a type. -/
def marked (phrase : Phrase) : Phrase :=
  { phrase.awaiting.valued with pattern := .absent }

/-- An operator has been met. What seemed to open type arguments was a comparison. -/
def operated (phrase : Phrase) : Phrase :=
  { phrase.marked with angles := 0 }

/-- The header ends and a value begins. -/
def assigned (phrase : Phrase) : Phrase :=
  { phrase.awaiting with
    stage := .value, pattern := .absent, header := false, angles := 0, called := false,
    constrained := false, braced := false }

/-- A statement word has been met, which a value may follow. -/
def stated (phrase : Phrase) : Phrase :=
  { phrase.awaiting with stage := .value, header := false, term := false }

/-- A name has been given to what the words so far are the type of. -/
def declared (phrase : Phrase) : Phrase :=
  { phrase.closed with stage := .named, term := false }

/-- A keyword of a declaration has been met that tells what its block holds. -/
def declaring (phrase : Phrase) (content : Content) : Phrase :=
  if phrase.header then { phrase.awaiting with body := some content }
  else { phrase.awaiting with term := false }

def isWordStart (c : Char) : Bool :=
  Lexeme.isWordPart c || c = '@'

/-- Characters that start an operand, but for those that may be operators too. -/
def isOperandStart (c : Char) : Bool :=
  isWordStart c || ['(', '[', '\x7b', '"', '\'', '$', '!', '~'].contains c

def startsWith (test : Char → Bool) (text : String) : Bool :=
  (text.toList.head?.map test).getD false

/-- Whether a word that may be a name stands in front of another word or operand instead. -/
def leadsOn (text next : String) : Bool :=
  text = "not" || startsWith isOperandStart next

/-- The phrase after a word where an operand may follow. -/
def openWord (phrase : Phrase) (text next : String) : Phrase :=
  if phrase.constrained then phrase.closed
  else if ["class", "struct", "interface"].contains text then phrase.declaring .members
  else if text = "record" && phrase.header && startsWith isWordStart next then
    phrase.declaring .members
  else if text = "enum" then phrase.declaring .terms
  else if text = "namespace" then { phrase.declaring .members with path := true }
  else if text = "using" then { phrase.awaiting with path := phrase.header, term := false }
  else if text = "checked" && phrase.header then phrase.awaiting
  else if text = "operator" then
    { phrase.awaiting with stage := if next = "(" then .type else .named, term := false }
  else if ["new", "stackalloc"].contains text then
    { phrase.awaiting.valued with braced := !phrase.header }
  else if text = "delegate" then { phrase.awaiting with lead := true }
  else if ["return", "throw", "goto"].contains text then phrase.stated
  else if text = "await" && leadsOn text next then { phrase.stated with term := phrase.term }
  else if ["break", "continue"].contains text then phrase.stated.closed
  else if text = "from" && startsWith isWordStart next then
    { phrase.awaiting with query := true, pattern := .unnamed }
  else if Keyword.contextual.contains text && leadsOn text next then phrase.awaiting
  else if Keyword.leading.contains text then { phrase.awaiting with term := false }
  else if Keyword.values.contains text then phrase.constant
  else if text = "var" then { phrase.closed with path := false }
  else phrase.closed

/-- The phrase after a word where no operand may follow. -/
def closedWord? (phrase : Phrase) (text next : String) : Option Phrase :=
  if text = "is" then some { phrase.stated with term := phrase.term, pattern := .unnamed }
  else if text = "as" then some { phrase.stated with term := phrase.term, pattern := .absent }
  else if text = "in" then some phrase.awaiting
  else if text = "switch" && next ≠ "(" then some { phrase.stated with term := phrase.term }
  else if text = "with" && next = "\x7b" then some { phrase.stated with term := phrase.term }
  else if (text = "and" || text = "or") && phrase.pattern ≠ .absent then
    some { phrase.awaiting with pattern := .unnamed }
  else if text = "where" && (phrase.called || phrase.constrained || phrase.body.isSome) &&
      phrase.stage ≠ .value then some { phrase.awaiting with constrained := true }
  else if phrase.query && Keyword.query.contains text then
    some { phrase.awaiting with
      pattern := if text = "from" || text = "join" then .unnamed else .absent }
  else if phrase.query && (text = "ascending" || text = "descending") then some phrase
  else if phrase.stage = .type && !phrase.called && text = "operator" then
    some { phrase.declared with posture := .wanting }
  else if phrase.stage = .type && !phrase.called && text = "this" then some phrase.declared
  else if Keyword.isReserved text then none
  else if phrase.stage = .type && !phrase.called then
    if phrase.body.isSome || (phrase.path && Keyword.contextual.contains text) then none
    else some phrase.declared
  else if phrase.pattern = .unnamed then some { phrase.closed with pattern := .named }
  else none

/-- Whether a word may start an operand. -/
def startsOperand (text : String) : Bool :=
  !Keyword.leading.contains text ||
    ["new", "stackalloc", "delegate", "static", "ref", "throw"].contains text

/-- The phrase after a word. Where an operand and an operator may follow alike, a word that reads as
an operator is one. -/
def afterWord? (phrase : Phrase) (text next : String) : Option Phrase :=
  match phrase.posture with
  | .wanting =>
    if phrase.stage = .value && Keyword.statements.contains text then none
    else some (phrase.openWord text next)
  | .complete => phrase.closedWord? text next
  | _ =>
    match phrase.closedWord? text next with
    | some phrase => some phrase
    | none => if startsOperand text then some (phrase.openWord text next) else none

/-- Whether the phrase stands in an expression, and not in a type or a pattern. -/
def isExpression (phrase : Phrase) : Bool :=
  phrase.stage = .value && phrase.pattern = .absent && !phrase.path

/-- The phrase after a mark other than the semicolon. -/
def afterMark (phrase : Phrase) (text : String) : Phrase :=
  let isComplete := phrase.posture = .complete
  let inType := isComplete && !phrase.called && (phrase.stage = .type || phrase.path)
  if text = "." || text = "::" then
    if phrase.called && phrase.stage = .type then phrase.awaiting.valued else phrase.awaiting
  else if text = "=" then phrase.assigned
  else if text = "=>" then { phrase.assigned with lead := true }
  else if text = "," then
    { phrase.awaiting with pattern := if phrase.angles = 0 then .absent else phrase.pattern }
  else if text = ":" then
    if phrase.constrained then phrase.awaiting else phrase.operated
  else if text = "++" || text = "--" || text = "!" then
    if isComplete then phrase.valued else phrase.awaiting.valued
  else if (text = "?" && (inType || phrase.constrained)) || (text = "*" && inType) then phrase
  else if text = "<" && isComplete then { phrase.awaiting with angles := phrase.angles + 1 }
  else if text = ">" && phrase.angles ≠ 0 && phrase.posture ≠ .wanting then
    { phrase with
      angles := phrase.angles - 1, posture := if phrase.isExpression then .compared else .complete }
  else if isComplete && (text = "?" || text = "*") then phrase.marked
  else if isComplete then phrase.operated
  else if text = "*" && phrase.lead then phrase.awaiting
  else if ["+", "-", "!", "~", "&", "*"].contains text then phrase.awaiting.valued
  else phrase.awaiting.nameless

/-- Whether a parameter list ends the words of a declaration: no more brackets may follow. -/
def isListed (phrase : Phrase) : Bool :=
  phrase.posture = .complete && phrase.stage = .named && phrase.called && !phrase.constrained

/-- The phrase after round brackets. Those that a type fills may be a cast. -/
def afterRound (phrase : Phrase) (isType : Bool) : Phrase :=
  match phrase.posture, phrase.stage with
  | .wanting, .type => { phrase with posture := .complete }
  | .wanting, .value =>
    { phrase with posture := if isType && phrase.isExpression then .cast else .complete }
  | .cast, _ => if isType then phrase else { phrase with posture := .complete }
  | _, _ => { phrase with posture := .complete, called := true }

/-- The phrase after square brackets. Behind a parameter list they start the next declaration. -/
def afterSquare? (phrase : Phrase) : Option Phrase :=
  if phrase.posture = .wanting then
    if phrase.stage = .value then some phrase.closed else some phrase.awaiting
  else if (phrase.path && phrase.stage ≠ .value) ||
      (phrase.called && (phrase.header || phrase.stage = .named)) then none
  else some phrase.closed

/-- The phrase after a sign, unless a semicolon is missing before it. Braces are left as they are. -/
def next? (phrase : Phrase) : Sign → Option Phrase
  | .trivia => some phrase
  | .branch _ => some phrase
  | .literal => if phrase.posture = .complete then none else some phrase.constant
  | .word text next => phrase.afterWord? text next
  | .mark text =>
    if text = "~" && phrase.posture = .complete then none else some (phrase.afterMark text)
  | .round isType => if phrase.isListed then none else some (phrase.afterRound isType)
  | .square => phrase.afterSquare?
  | .brace => some phrase

/-- What braces hold that follow a phrase, and the phrase after them unless they end it. -/
def braces? (phrase : Phrase) : Option (Content × Option Phrase) :=
  if phrase.lead then some (.statements, some phrase.closed)
  else if phrase.header then
    some (phrase.body.getD (if phrase.called then .statements else .accessors), none)
  else if phrase.posture = .wanting then some (.terms, some phrase.closed)
  else if phrase.stage = .named && phrase.called then some (.statements, none)
  else if phrase.braced || phrase.pattern ≠ .absent then
    some (.terms, some { phrase.closed with braced := false })
  else none

end Phrase
end Conform.Source
