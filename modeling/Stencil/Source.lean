import Stencil.Span
import Stencil.Text.Blank
import Stencil.Text.Excerpt
import Stencil.Text.Lines
import Stencil.Text.Utf8

namespace Stencil

open Text

/-! A template's text on one line, with the place in the file that each piece
came from. -/

/-- A place in a file: line and column count from one, columns in characters. -/
structure Position where
  line : Nat
  column : Nat
  deriving DecidableEq, Repr

/-- The offset at which a line of the file begins in the flattened text, and
where it was. -/
structure LineStart where
  offset : Nat
  position : Position
  deriving DecidableEq, Repr

structure Source where
  chars : List Char
  lines : List LineStart
  deriving DecidableEq, Repr

namespace Source

structure Line where
  position : Position
  chars : List Char

def Line.keep? (number : Nat) (chars : List Char) : Option Line :=
  match trim chars with
  | [] => none
  | kept => some ⟨⟨number, (chars.takeWhile isBlank).length + 1⟩, kept⟩

def keptLines (raw : String) : List Line :=
  ((Text.lines raw.toList).zipIdx 1).filterMap fun (chars, number) =>
    Line.keep? number chars

/-- What goes between two lines: a space where words would run together, and
nothing at the edge of a tag. -/
def separator : Option Char → List Char → List Char
  | none, _ => []
  | some '>', _ => []
  | some _, '<' :: _ => []
  | some _, _ => [' ']

def join (offset : Nat) (last : Option Char) : List Line → Source
  | [] => ⟨[], []⟩
  | line :: rest =>
      let gap := separator last line.chars
      let start := offset + byteLength gap
      let joined := join (start + byteLength line.chars) line.chars.getLast?
        rest
      ⟨gap ++ line.chars ++ joined.chars,
        ⟨start, line.position⟩ :: joined.lines⟩

/-- Flattens a file to one line: every line is trimmed, blank lines are dropped,
and the rest is joined. -/
def ofText (raw : String) : Source :=
  join 0 none (keptLines raw)

def text (source : Source) : String :=
  String.ofList source.chars

def length (source : Source) : Nat :=
  byteLength source.chars

def isEmpty (source : Source) : Bool :=
  source.chars.isEmpty

def whole (source : Source) : Span :=
  ⟨0, source.length⟩

def slice? (source : Source) (span : Span) : Option (List Char) :=
  Text.slice? source.chars span.start span.stop

/-- The place in the file of a byte of the flattened text. An offset past the
end counts as the end; inside a character the bytes of the line before it are
counted. -/
def positionAt (source : Source) (offset : Nat) : Position :=
  match (source.lines.takeWhile fun line => line.offset ≤ offset).getLast? with
  | none => ⟨1, 1⟩
  | some line =>
      let stop := min offset source.length
      let width :=
        match source.slice? ⟨line.offset, stop⟩ with
        | some before => before.length
        | none => stop - line.offset
      ⟨line.position.line, line.position.column + width⟩

def excerpt (source : Source) (span : Span) : String :=
  let stop := min span.stop source.length
  let start := min span.start stop
  Text.excerpt ((source.slice? ⟨start, stop⟩).getD [])

end Source

def flatten (raw : String) : String :=
  (Source.ofText raw).text

end Stencil
