import Stencil.Marker.Scan
import Stencil.TemplateError

namespace Stencil

open Text

/-! The markers of a source, and what the value of an attribute stands for. -/

namespace Source

/-- Cuts a text that begins at an offset of the source at its markers. -/
def cutMarkers (source : Source) (offset : Nat) (chars : List Char)
    (location : Location) :
    Except TemplateError MarkedText :=
  (Marker.scan (.ofLocation location) ⟨offset, chars⟩).mapError fun failure =>
    source.error failure.span (.marker failure.problem)

def marked (source : Source) (span : Span) (location : Location) :
    Except TemplateError MarkedText := do
  let chars ← source.slice span
  source.cutMarkers span.start chars location

def markers (source : Source) (span : Span) (location : Location) :
    Except TemplateError (List Marker) :=
  (source.marked span location).map MarkedText.markers

end Source

inductive LiteralType where
  | string
  | bool
  | int
  deriving DecidableEq, Repr

namespace LiteralType

def spellsInt : List Char → Bool
  | [] => false
  | first :: rest =>
      if first == '-' || first == '+' then
        !rest.isEmpty && rest.all Char.isDigit
      else first.isDigit && rest.all Char.isDigit

def of (text : String) : LiteralType :=
  if text == "true" || text == "false" then .bool
  else if spellsInt text.toList then .int
  else .string

end LiteralType

inductive TextPart where
  | plain (text : String)
  | marker (marker : Marker)
  deriving DecidableEq, Repr

namespace MarkedText

def plainParts (chars : List Char) : List TextPart :=
  match chars with
  | [] => []
  | chars => [.plain (String.ofList chars)]

def parts (marked : MarkedText) : List TextPart :=
  plainParts marked.lead ++
    marked.tail.flatMap fun (marker, chars) =>
      .marker marker :: plainParts chars

end MarkedText

inductive AttributeValue where
  | empty
  /-- A value without markers. -/
  | literal (kind : LiteralType) (text : String)
  /-- One marker, with blanks at most around it. -/
  | expression (marker : Marker)
  /-- Text and markers mixed. -/
  | template (parts : List TextPart)
  deriving DecidableEq, Repr

namespace AttributeValue

def ofMarked (text : String) (marked : MarkedText) : AttributeValue :=
  match marked.markers with
  | [] => .literal (.of text) text
  | [marker] =>
      if trimmed text = marker.raw then
        .expression marker else .template marked.parts
  | _ => .template marked.parts

def read (source : Source) (attr : Attribute) :
    Except TemplateError AttributeValue :=
  match attr.value with
  | none => .ok .empty
  | some value =>
      if value.text.isEmpty then .ok .empty
      else
        (source.cutMarkers value.span.start value.text.toList .tag).map
          (ofMarked value.text)

def markers : AttributeValue → List Marker
  | .empty | .literal _ _ => []
  | .expression marker => [marker]
  | .template parts => parts.filterMap fun part =>
      match part with
      | .plain _ => none
      | .marker marker => some marker

end AttributeValue

end Stencil
