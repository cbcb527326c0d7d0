import Conform.Dialect
import Conform.Expression
import Conform.Failure
import Conform.Source.Method
import Conform.Summary

/-!
From sources to records. A file has to declare exactly one namespace; the methods that its dialect
knows become behaviours, named by their documentation or else by their identifier, and the imports
that not every generated file carries are kept.
-/

set_option autoImplicit false

namespace Conform.Extraction

open Source

/-- Namespaces of generated code start with this. -/
def generatedPrefix : String := "Omnia.Behaviours."

/-- What every generated file imports. -/
def defaultImports : List String := [
  "System",
  "System.Collections.Generic",
  "System.Linq",
  "System.Net",
  "System.Net.Http",
  "System.Net.Http.Formatting",
  "System.Threading.Tasks",
  "Newtonsoft.Json",
  "Microsoft.Extensions.DependencyInjection",
  "Omnia.Libraries.Infrastructure.Connector",
  "Omnia.Libraries.Infrastructure.Connector.Client",
  "Omnia.Libraries.Infrastructure.Behaviours",
  "Omnia.Libraries.Infrastructure.Behaviours.Query",
  "Omnia.Libraries.Infrastructure.Behaviours.Action"]

/-- Whether an import is neither carried by every file nor generated code. -/
def isCustom (target : String) : Bool :=
  !defaultImports.contains target && !generatedPrefix.toList.isPrefixOf target.toList

def customImports (found : Structure) : List String :=
  found.imports.filter isCustom

/-- The one namespace of a file. -/
def spaceName (spaceNames : List String) : Except Failure String :=
  match spaceNames with
  | [name] => .ok name
  | [] => .error (.structural .noNamespace)
  | many => .error (.structural (.manyNamespaces many.length))

/-- The code of a method in the form of its dialect; a method without a body has none. -/
def expression (dialect : Dialect) (source : List Char) (method : Method) :
    Except Failure String :=
  match method.body with
  | .block span statements =>
    if dialect.trimsExpression then
      .ok (String.ofList (Expression.trimmed (Text.slice span source)))
    else .ok (String.ofList (Expression.laidOut source span statements))
  | .expression => .error (.structural (.expressionBody method.identifier method.line))
  | .missing => .ok ""

/-- The name and the description of a method: those of its documentation, or the name that its
identifier implies. -/
def describe (dialect : Dialect) (method : Method) : String × String :=
  let summary := Summary.ofComments method.docs
  (summary.name.getD (dialect.methodName method.identifier), summary.description)

/-- The behaviour of a method, if its dialect knows it and it holds any code. -/
def behaviour? (dialect : Dialect) (source : List Char) (method : Method) :
    Except Failure (Option Behaviour) :=
  match dialect.classify? method.identifier with
  | none => if dialect.isStrict then .error (.unsupported method.identifier) else .ok none
  | some (hook, target) => do
    let code ← expression dialect source method
    if code.isEmpty then return none
    let (name, description) := describe dialect method
    return some ⟨name, description, code, hook, target⟩

/-- The behaviours of methods in order, or the first failure. -/
def behavioursOf (dialect : Dialect) (source : List Char) :
    List Method → Except Failure (List Behaviour)
  | [] => .ok []
  | method :: rest => do
    let behaviour ← behaviour? dialect source method
    return behaviour.toList ++ (← behavioursOf dialect source rest)

def behaviours (dialect : Dialect) (source : String) : Except Failure (List Behaviour) :=
  behavioursOf dialect source.toList (Structure.ofSource source.toList).methods

def entity (dialect : Dialect) (source : String) : Except Failure Entity := do
  let found := Structure.ofSource source.toList
  let name ← spaceName found.spaceNames
  let behaviours ← behavioursOf dialect source.toList found.methods
  return ⟨name, behaviours, customImports found⟩

/-- The behaviour of an application file is its first method. -/
def application (source : String) : Except Failure Application := do
  let found := Structure.ofSource source.toList
  let space ← spaceName found.spaceNames
  match found.methods with
  | [] => throw (.structural .noMethod)
  | method :: _ =>
    let (name, description) := describe .application method
    let code ← expression .application source.toList method
    return ⟨space, name, description, code, customImports found⟩

end Conform.Extraction
