import Stencil.Text.Blank
import Stencil.Text.Search
import Stencil.Text.Utf8

namespace Stencil

open Text

/-- What is left to read of a text, and the byte offset at which it begins. -/
structure Cursor where
  offset : Nat
  rest : List Char

namespace Cursor

def advance (cursor : Cursor) (count : Nat) : Cursor :=
  ⟨cursor.offset + byteLength (cursor.rest.take count), cursor.rest.drop count⟩

def skipWhile (cursor : Cursor) (test : Char → Bool) : Cursor :=
  ⟨cursor.offset + byteLength (cursor.rest.takeWhile test),
    cursor.rest.dropWhile test⟩

def skipUntil (cursor : Cursor) (found : List Char → Bool) : Cursor :=
  ⟨cursor.offset + byteLength (takeUntil found cursor.rest),
    dropUntil found cursor.rest⟩

@[simp] theorem length_advance (cursor : Cursor) (count : Nat) :
    (cursor.advance count).rest.length = cursor.rest.length - count := by
  simp [advance]

theorem length_skipWhile_le (cursor : Cursor) (test : Char → Bool) :
    (cursor.skipWhile test).rest.length ≤ cursor.rest.length :=
  length_dropWhile_le test cursor.rest

theorem length_skipUntil_le (cursor : Cursor) (found : List Char → Bool) :
    (cursor.skipUntil found).rest.length ≤ cursor.rest.length :=
  length_dropUntil_le found cursor.rest

end Cursor

end Stencil
