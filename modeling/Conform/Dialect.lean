import Conform.Behaviour
import Conform.Text.LowerCase
import Conform.Text.Occurrence
import Conform.Text.Word

/-!
Naming dialects of generated sources: how the identifier of a method tells the hook it belongs to.

In a data-access file the names form a closed list. In an entity file `On…PropertyChange`,
`Before…EntityInitialize` and `Get…` frame a segment of word characters. An application file does not
classify its method at all.
-/

set_option autoImplicit false

namespace Conform

inductive Dialect where
  | dataAccess
  | entity
  | application
  deriving DecidableEq, Repr

namespace Dialect

def name : Dialect → String
  | dataAccess => "data-access"
  | entity => "entity"
  | application => "application"

/-- Whether a method outside the naming rules is an error. -/
def isStrict (dialect : Dialect) : Bool :=
  dialect == dataAccess

/-- Whether an expression is taken without its surrounding blanks, rather than as laid out. -/
def trimsExpression (dialect : Dialect) : Bool :=
  dialect != entity

/-- Whether an ending `Async` is no part of the behaviour's name. -/
def stripsAsync (dialect : Dialect) : Bool :=
  dialect != entity

/-- The behaviour name that an identifier implies. -/
def methodName (dialect : Dialect) (identifier : String) : String :=
  if dialect.stripsAsync then
    ((Text.before? "Async".toList identifier.toList).map String.ofList).getD identifier
  else identifier

/-- The nonempty word segment between a front and a back part of a name. -/
def segment? (front back : String) (identifier : String) : Option (List Char) := do
  let rest ← Text.after? front.toList identifier.toList
  let segment ← Text.before? back.toList rest
  if segment.isEmpty || !segment.all Text.isWordChar then none else some segment

/-- The attribute of every collection initialisation. -/
def collectionTarget : String := "collection"

def dataHook? : String → Option Hook
  | "Create" => some .create
  | "Update" => some .update
  | "Delete" => some .delete
  | "Read" => some .read
  | "ReadList" => some .readList
  | _ => none

def fixedHook? : String → Option Hook
  | "ExecuteInitialize" => some .initialization
  | "ExecuteBeforeUpdate" => some .beforeChange
  | "ExecuteAfterUpdate" => some .afterChange
  | "ExecuteBeforeSave" => some .beforeSave
  | "ExecuteAfterSave" => some .afterSave
  | _ => none

/-- The hook and the target attribute that a name in an entity file tells. -/
def classifyEntity? (identifier : String) : Option (Hook × Option String) :=
  match fixedHook? identifier with
  | some hook => some (hook, none)
  | none =>
    match segment? "On" "PropertyChange" identifier with
    | some segment => some (.action, some (String.ofList segment))
    | none =>
      match segment? "Before" "EntityInitialize" identifier with
      | some _ => some (.collectionInitialization, some collectionTarget)
      | none =>
        (segment? "Get" "" identifier).map fun segment =>
          (.formula, some (String.ofList (Text.lowerFirst segment)))

/-- The hook and the target attribute of a method, by its identifier. -/
def classify? (dialect : Dialect) (identifier : String) : Option (Hook × Option String) :=
  match dialect with
  | dataAccess => (dataHook? (dialect.methodName identifier)).map (·, none)
  | entity => classifyEntity? identifier
  | application => none

end Dialect
end Conform
