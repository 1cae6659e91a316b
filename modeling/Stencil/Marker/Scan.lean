import Stencil.Marker.Basic
import Stencil.Token.Cursor

namespace Stencil

open Text

/-! Reading markers. The text is read once from left to right; what is inside a
marker is never looked at again. -/

namespace Rune

def Kind.opener (kind : Kind) : List Char :=
  '$' :: kind.name.toList ++ ['(']

def opened? (chars : List Char) : Option Kind :=
  Kind.all.find? fun kind => beginsWith kind.opener chars

def quotedIdentifier? : List Char → Option (List Char)
  | [] => none
  | mark :: rest =>
      if (mark == '"' || mark == '\'') && rest.getLast? == some mark &&
          spellsIdentifier rest.dropLast then
        some rest.dropLast
      else none

/-- The value of a rune's argument: a quoted identifier where the rune declares
it, otherwise a path. -/
def Kind.value? (kind : Kind) (argument : List Char) : Option (List Char) :=
  if kind.declares then quotedIdentifier? argument
  else if spellsPath argument then some argument
  else none

def read? (location : Location) (cursor : Cursor) :
    Except Marker.Failure (Option (Rune × Cursor)) :=
  match opened? cursor.rest with
  | none => .ok none
  | some kind =>
      let inside := cursor.advance kind.opener.length
      let argument := inside.rest.takeWhile fun char => char != ')'
      let stop := inside.skipWhile fun char => char != ')'
      match stop.rest with
      | [] => .error ⟨.unclosedRune kind, ⟨cursor.offset, stop.offset⟩⟩
      | _ :: _ =>
          let after := stop.advance 1
          let span : Span := ⟨cursor.offset, after.offset⟩
          match kind.value? argument with
          | none => .error ⟨.badArgument kind, span⟩
          | some value =>
              if kind = .slot ∧ location = .tag then
                .error ⟨.slotInsideTag, span⟩
              else
                let raw := kind.opener ++ argument ++ [')']
                .ok (some
                  (⟨kind, String.ofList value, String.ofList raw, span,
                    location⟩, after))

end Rune

namespace Interpolation

def opener : List Char := ['{', '{']

def closer : List Char := ['}', '}']

def read (location : Location) (cursor : Cursor) :
    Except Marker.Failure (Interpolation × Cursor) :=
  let inside := cursor.advance opener.length
  let content := takeUntil (beginsWith closer) inside.rest
  let stop := inside.skipUntil (beginsWith closer)
  match stop.rest with
  | [] => .error ⟨.unclosedInterpolation, ⟨cursor.offset, stop.offset⟩⟩
  | _ :: _ =>
      let after := stop.advance closer.length
      let span : Span := ⟨cursor.offset, after.offset⟩
      match trim content with
      | [] => .error ⟨.emptyInterpolation, span⟩
      | value =>
          .ok (⟨String.ofList value,
            String.ofList (opener ++ content ++ closer), span, location⟩,
            after)

end Interpolation

/-- A text cut at its markers: the plain text before the first one, then each
marker with the plain text behind it. -/
structure MarkedText where
  lead : List Char
  tail : List (Marker × List Char)
  deriving DecidableEq, Repr

namespace MarkedText

def markers (marked : MarkedText) : List Marker :=
  marked.tail.map Prod.fst

end MarkedText

namespace Marker

def read? (location : Location) (cursor : Cursor) :
    Except Failure (Option (Marker × Cursor)) :=
  if beginsWith Interpolation.opener cursor.rest then
    (Interpolation.read location cursor).map fun (inner, after) =>
      some (.interpolation inner, after)
  else
    (Rune.read? location cursor).map fun found =>
        found.map fun (inner, after) => (.rune inner, after)

/-- What surrounds a place of the text: text, a tag, a quoted value in a tag, or
an attribute value that is read on its own. -/
inductive Context where
  | text
  | tag
  | quoted (mark : Char)
  | value
  deriving DecidableEq, Repr

namespace Context

def ofLocation : Location → Context
  | .text => .text
  | .tag => .value

def location : Context → Location
  | .text => .text
  | .tag | .quoted _ | .value => .tag

/-- A tag begins at an angle bracket that a letter or a slash follows. -/
def beginsTag (char : Char) (rest : List Char) : Bool :=
  char == '<' &&
    match rest with
    | [] => false
    | next :: _ => next.isAlpha || next == '/'

def step (context : Context) (char : Char) (rest : List Char) : Context :=
  match context with
  | .text => if beginsTag char rest then .tag else .text
  | .tag =>
      if char == '"' || char == '\'' then .quoted char
      else if char == '>' then .text
      else .tag
  | .quoted mark => if char == mark then .tag else .quoted mark
  | .value => .value

end Context

theorem length_rune_read?_lt {location : Location} {cursor next : Cursor}
    {rune : Rune}
    (read : Rune.read? location cursor = .ok (some (rune, next))) :
    next.rest.length < cursor.rest.length := by
  unfold Rune.read? at read
  split at read
  · simp at read
  · rename_i kind _
    have := (cursor.advance kind.opener.length).length_skipWhile_le fun char =>
      char != ')'
    dsimp only at read
    split at read
    · cases read
    · rename_i found
      have := congrArg List.length found
      split at read
      · cases read
      · split at read
        · cases read
        · simp only [Except.ok.injEq, Option.some.injEq, Prod.mk.injEq] at read
          rw [← read.2]
          simp only [Cursor.length_advance, List.length_cons] at *
          omega

theorem length_interpolation_read_lt {location : Location}
    {cursor next : Cursor} {interpolation : Interpolation}
    (read : Interpolation.read location cursor = .ok (interpolation, next)) :
    next.rest.length < cursor.rest.length := by
  unfold Interpolation.read at read
  have := (cursor.advance Interpolation.opener.length).length_skipUntil_le
    (beginsWith Interpolation.closer)
  dsimp only at read
  split at read
  · cases read
  · rename_i found
    have := congrArg List.length found
    split at read
    · cases read
    · simp only [Except.ok.injEq, Prod.mk.injEq] at read
      rw [← read.2]
      simp only [Cursor.length_advance, List.length_cons, Interpolation.closer,
        List.length_nil] at *
      omega

theorem length_read?_lt {location : Location} {cursor next : Cursor}
    {marker : Marker}
    (read : read? location cursor = .ok (some (marker, next))) :
    next.rest.length < cursor.rest.length := by
  unfold read? at read
  split at read
  · cases inner : Interpolation.read location cursor with
    | error failure => simp [inner, Except.map] at read
    | ok result =>
        simp only [inner, Except.map, Except.ok.injEq, Option.some.injEq,
          Prod.mk.injEq] at read
        rw [← read.2]
        exact length_interpolation_read_lt inner
  · cases inner : Rune.read? location cursor with
    | error failure => simp [inner, Except.map] at read
    | ok result =>
        cases result with
        | none => simp [inner, Except.map] at read
        | some result =>
            simp only [inner, Except.map, Option.map, Except.ok.injEq,
              Option.some.injEq, Prod.mk.injEq] at read
            rw [← read.2]
            exact length_rune_read?_lt inner

/-- Cuts what is left at its markers. A marker leaves the context as it is. -/
def scan (context : Context) (cursor : Cursor) : Except Failure MarkedText :=
  match _rest : cursor.rest with
  | [] => .ok ⟨[], []⟩
  | char :: rest =>
      match _read : read? context.location cursor with
      | .error failure => .error failure
      | .ok (some (marker, next)) =>
          (scan context next).map fun marked =>
            ⟨[], (marker, marked.lead) :: marked.tail⟩
      | .ok none =>
          (scan (context.step char rest) (cursor.advance 1)).map fun marked =>
            ⟨char :: marked.lead, marked.tail⟩
termination_by cursor.rest.length
decreasing_by
  · exact length_read?_lt _read
  · simp [_rest]

end Marker

end Stencil
