import Stencil.Construct.Basic
import Stencil.Markup.Node

namespace Stencil

open Text

/-! Which elements are constructs, and of which kind. -/

inductive Directive where
  | component
  | loop
  | conditional
  | alternative
  | placeholder
  | slot
  deriving DecidableEq, Repr

namespace Directive

/-- All directives. An element that carries several is what the first of them
says. -/
def all : List Directive :=
  [.component, .loop, .conditional, .alternative, .placeholder, .slot]

def name : Directive → String
  | .component => "_component"
  | .loop => "_for"
  | .conditional => "_if"
  | .alternative => "_else"
  | .placeholder => "_placeholder"
  | .slot => "_slot"

def of? (element : Element) : Option (Directive × Attribute) :=
  all.findSome? fun directive =>
    (element.attribute? directive.name).map fun attr => (directive, attr)

/-- Names that begin with an underscore are kept for directives and never passed
on. -/
def isReserved (name : String) : Bool :=
  beginsWith ['_'] name.toList

end Directive

/-- What a tree of constructs is read with: the source, the component names of
the whole build, and the name of the component that is being read, whose own tag
is no call. -/
structure Scope where
  source : Source
  known : List String
  component : Option String

namespace Scope

def target? (scope : Scope) (name : String) : Option String :=
  (scope.known.filter fun candidate => scope.component != some candidate).find?
    fun candidate => sameIgnoringCase candidate name

def word (scope : Scope) (attr : Attribute) (valid : String → Bool) :
    Except TemplateError String :=
  let value := trimmed attr.text
  if value.isEmpty then
    .error (scope.source.error attr.span (.missingValue attr.name))
  else if valid value then .ok value
  else .error (scope.source.error attr.span (.malformedValue attr.name value))

def loop (scope : Scope) (attr : Attribute) :
    Except TemplateError Construct.Kind :=
  match (words attr.text.toList).map String.ofList with
  | [item, preposition, collection, type] =>
      if preposition == "of" && isIdentifier item && isPath collection then
        if beginsWith ['[', ']'] type.toList && 2 < byteLength type.toList then
          .ok (.loop item collection type)
        else .error (scope.source.error attr.span (.notSliceType type))
      else .error (scope.source.error attr.span (.malformedLoop attr.text))
  | _ => .error (scope.source.error attr.span (.malformedLoop attr.text))

def argument (scope : Scope) (attr : Attribute) :
    Except TemplateError Argument :=
  (AttributeValue.read scope.source attr).map fun value =>
    ⟨attr.name, value, attr.span⟩

def arguments (scope : Scope) (element : Element) :
    Except TemplateError (List Argument) :=
  (element.tag.attributes.filter fun attr =>
    !Directive.isReserved attr.name).mapM scope.argument

def placeholder (scope : Scope) (element : Element) (target : String) :
    Except TemplateError Construct.Kind :=
  (scope.arguments element).map (.placeholder target)

def kind? (scope : Scope) (element : Element) (isRoot : Bool) :
    Except TemplateError (Option Construct.Kind) :=
  match Directive.of? element with
  | none =>
      match scope.target? element.name with
      | none => .ok none
      | some target => (scope.placeholder element target).map some
  | some (.component, attr) =>
      if isRoot then
        (scope.word attr isIdentifier).map fun name => some (.component name)
      else .error (scope.source.error attr.span .nestedComponent)
  | some (.loop, attr) => (scope.loop attr).map some
  | some (.conditional, attr) =>
      (scope.word attr isPath).map fun condition =>
        some (.conditional condition)
  | some (.alternative, attr) =>
      (scope.word attr isPath).map fun condition =>
        some (.alternative condition)
  | some (.placeholder, attr) => do
      let name ← scope.word attr isIdentifier
      match scope.target? name with
      | none => .error (scope.source.error attr.span (.unknownComponent name))
      | some target => (scope.placeholder element target).map some
  | some (.slot, attr) =>
      (scope.word attr isIdentifier).map fun name => some (.slot name)

end Scope

end Stencil
