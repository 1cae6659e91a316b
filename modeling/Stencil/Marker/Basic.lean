import Stencil.Span
import Stencil.Text.Identifier

namespace Stencil

/-! Markers: the places of a template that stand for an expression. -/

inductive Location where
  | text
  | tag
  deriving DecidableEq, Repr

/-- A rune is written `$`, its kind, and an argument in parentheses. -/
inductive Rune.Kind where
  | prop
  | slot
  | val
  | pipe
  deriving DecidableEq, Repr

namespace Rune.Kind

def all : List Kind := [.prop, .slot, .val, .pipe]

def name : Kind → String
  | .prop => "prop"
  | .slot => "slot"
  | .val => "val"
  | .pipe => "pipe"

def ofName? (name : String) : Option Kind :=
  all.find? fun kind => kind.name == name

def declares : Kind → Bool
  | .prop | .slot => true
  | .val | .pipe => false

end Rune.Kind

structure Rune where
  kind : Rune.Kind
  value : String
  raw : String
  span : Span
  location : Location
  deriving DecidableEq, Repr

structure Interpolation where
  value : String
  raw : String
  span : Span
  location : Location
  deriving DecidableEq, Repr

def Interpolation.isBare (interpolation : Interpolation) : Bool :=
  Text.isIdentifier interpolation.value

inductive Marker where
  | rune (rune : Rune)
  | interpolation (interpolation : Interpolation)
  deriving DecidableEq, Repr

namespace Marker

def span : Marker → Span
  | .rune inner => inner.span
  | .interpolation inner => inner.span

def location : Marker → Location
  | .rune inner => inner.location
  | .interpolation inner => inner.location

def raw : Marker → String
  | .rune inner => inner.raw
  | .interpolation inner => inner.raw

def expression : Marker → String
  | .rune inner => inner.value
  | .interpolation inner => inner.value

def declared? : Marker → Option String
  | .rune inner => if inner.kind.declares then some inner.value else none
  | .interpolation inner =>
      if inner.isBare then some inner.value else none

inductive Problem where
  | unclosedRune (kind : Rune.Kind)
  | badArgument (kind : Rune.Kind)
  | slotInsideTag
  | unclosedInterpolation
  | emptyInterpolation
  deriving DecidableEq, Repr

def Problem.message : Problem → String
  | .unclosedRune kind => "`$" ++ kind.name ++ "(` is missing its closing `)`"
  | .badArgument kind =>
      if kind.declares then
        "`$" ++ kind.name ++ "` takes one quoted identifier, e.g. `$" ++
          kind.name ++ "(\"name\")`"
      else
        "`$" ++ kind.name ++
          "` takes one bare identifier without quotes, e.g. `$" ++ kind.name ++
          "(item.Name)`"
  | .slotInsideTag => "`$slot` renders markup and cannot appear inside a tag"
  | .unclosedInterpolation => "`\x7b\x7b` is missing its closing `\x7d\x7d`"
  | .emptyInterpolation => "empty interpolation"

structure Failure where
  problem : Problem
  span : Span
  deriving DecidableEq, Repr

end Marker

end Stencil
