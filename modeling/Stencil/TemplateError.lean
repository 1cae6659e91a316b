import Stencil.Marker.Basic
import Stencil.Token.Scan

namespace Stencil

/-! What can be wrong with a template. -/

namespace TemplateError

inductive Kind where
  | malformedAttribute
  | notAnElement
  | invalidRune
  | invalidInterpolation
  | missingAttribute
  | malformedMarkup
  deriving DecidableEq, Repr

def Kind.title : Kind → String
  | .malformedAttribute => "Malformed attribute"
  | .notAnElement => "Not a valid element"
  | .invalidRune => "Invalid rune syntax"
  | .invalidInterpolation => "Invalid interpolation"
  | .missingAttribute => "Missing required attribute"
  | .malformedMarkup => "Syntax error"

inductive Cause where
  /-- The markup cannot be cut into tokens. -/
  | token (problem : Token.Problem)
  | strayEndTag (name : String)
  | marker (problem : Marker.Problem)
  /-- There is no element to read. -/
  | noElement
  /-- The root is neither marked as a construct nor the tag of a component. -/
  | notConstruct (tag : String)
  | nestedComponent
  | missingValue (attr : String)
  | malformedValue (attr value : String)
  | malformedLoop (value : String)
  | notSliceType (type : String)
  | unknownComponent (name : String)
  /-- The condition of an `_else` has an `_if` before it, which another `_else`
  answers. -/
  | elseAnswered (condition : String)
  | elseUnpaired (condition : String)
  | duplicateComponent (name file : String)
  /-- A span does not lie on characters of its source. -/
  | outsideSource (span : Span)
  deriving DecidableEq, Repr

namespace Cause

def kind : Cause → Kind
  | .token _ | .strayEndTag _ | .outsideSource _ => .malformedMarkup
  | .marker problem =>
      match problem with
      | .unclosedRune _ | .badArgument _ | .slotInsideTag => .invalidRune
      | .unclosedInterpolation | .emptyInterpolation => .invalidInterpolation
  | .noElement | .notConstruct _ | .nestedComponent => .notAnElement
  | .malformedValue _ _ | .malformedLoop _ | .notSliceType _
  | .duplicateComponent _ _ =>
      .malformedAttribute
  | .missingValue _ | .unknownComponent _ | .elseAnswered _ | .elseUnpaired _ =>
      .missingAttribute

def message : Cause → String
  | .token problem => problem.message
  | .strayEndTag name => "End tag '</" ++ name ++ ">' has no matching start tag"
  | .marker problem => problem.message
  | .noElement => "fragment contains no element"
  | .notConstruct tag =>
      "<" ++ tag ++
        "> carries none of _component, _for, _if, _else, _placeholder, _slot" ++
        " and is not a known component"
  | .nestedComponent => "component definitions cannot be nested"
  | .missingValue attr => "`" ++ attr ++ "` needs a value"
  | .malformedValue attr value =>
      "`" ++ attr ++ "` expects a single identifier, got `" ++ value ++ "`"
  | .malformedLoop value =>
      "`_for` expects `ITEM of COLLECTION []TYPE`, got `" ++ value ++ "`"
  | .notSliceType type =>
      "`_for` element type must be a slice type like `[]Item`, got `" ++ type ++
        "`"
  | .unknownComponent name =>
      "`_placeholder` names unknown component '" ++ name ++ "'"
  | .elseAnswered condition =>
      "`_if=\"" ++ condition ++ "\"` already has an `_else`"
  | .elseUnpaired condition =>
      "`_else=\"" ++ condition ++ "\"` has no preceding `_if=\"" ++ condition ++
        "\"`"
  | .duplicateComponent name file =>
      "component '" ++ name ++ "' is already declared in " ++ file
  | .outsideSource _ => "span lies outside the source"

end Cause

end TemplateError

structure TemplateError where
  cause : TemplateError.Cause
  position : Position
  excerpt : String
  file : Option String
  deriving DecidableEq, Repr

namespace TemplateError

def detail (error : TemplateError) : String :=
  error.cause.message

def place (error : TemplateError) : String :=
  match error.file with
  | some file =>
      file ++ ":" ++ toString error.position.line ++ ":" ++
        toString error.position.column
  | none =>
      "line " ++ toString error.position.line ++ ", column " ++
        toString error.position.column

def message (error : TemplateError) : String :=
  error.cause.kind.title ++ " at " ++ error.place ++ ": " ++ error.detail ++
    " (near `" ++ error.excerpt ++ "`)"

def inFile (error : TemplateError) (file : String) : TemplateError :=
  { error with file := some file }

end TemplateError

namespace Source

def error (source : Source) (span : Span) (cause : TemplateError.Cause) :
    TemplateError :=
  ⟨cause, source.positionAt span.start, source.excerpt span, none⟩

/-- The text under a span, which is an error when the span does not lie on
characters. -/
def slice (source : Source) (span : Span) : Except TemplateError (List Char) :=
  match source.slice? span with
  | some chars => .ok chars
  | none => .error (source.error span (.outsideSource span))

end Source

end Stencil
