import Stencil.Proofs.Cut
import Stencil.Token.Cursor

namespace Stencil.Text

theorem beginsWith_cons (first char : Char) (pattern rest : List Char) :
    beginsWith (first :: pattern) (char :: rest) =
      (first == char && beginsWith pattern rest) := rfl

theorem take_of_beginsWith {pattern chars : List Char}
    (begins : beginsWith pattern chars) :
    chars.take pattern.length = pattern := by
  obtain ⟨rest, rfl⟩ := List.isPrefixOf_iff_prefix.mp begins
  exact List.take_left

theorem found_of_dropUntil {found : List Char → Bool} {chars rest : List Char}
    {char : Char} (dropped : dropUntil found chars = char :: rest) :
    found (char :: rest) := by
  fun_induction dropUntil found chars with
  | case1 => cases dropped
  | case2 first more here =>
      cases dropped
      exact here
  | case3 first more _ induction => exact induction dropped

end Stencil.Text

namespace Stencil.Cursor

open Text

/-! What a cursor passes over on its way to another one, and where both stand in
a text. -/

def Reads (cursor : Cursor) (taken : List Char) (next : Cursor) : Prop :=
  cursor.rest = taken ++ next.rest ∧
    next.offset = cursor.offset + byteLength taken

theorem Reads.refl (cursor : Cursor) : cursor.Reads [] cursor :=
  ⟨rfl, rfl⟩

theorem Reads.trans {cursor middle next : Cursor} {left right : List Char}
    (first : cursor.Reads left middle) (second : middle.Reads right next) :
    cursor.Reads (left ++ right) next := by
  refine ⟨?_, ?_⟩
  · rw [first.1, second.1, List.append_assoc]
  · rw [second.2, first.2, byteLength_append, Nat.add_assoc]

theorem reads_advance (cursor : Cursor) (count : Nat) :
    cursor.Reads (cursor.rest.take count) (cursor.advance count) :=
  ⟨(List.take_append_drop count cursor.rest).symm, rfl⟩

theorem reads_head {cursor : Cursor} {char : Char} {rest : List Char}
    (head : cursor.rest = char :: rest) :
    cursor.Reads [char] (cursor.advance 1) := by
  have reads := cursor.reads_advance 1
  rwa [head, List.take_succ_cons, List.take_zero] at reads

theorem reads_skipWhile (cursor : Cursor) (test : Char → Bool) :
    cursor.Reads (cursor.rest.takeWhile test) (cursor.skipWhile test) :=
  ⟨List.takeWhile_append_dropWhile.symm, rfl⟩

theorem head_skipWhile {cursor : Cursor} {test : Char → Bool} {char : Char}
    (head : char ∈ (cursor.skipWhile test).rest.head?) : test char = false := by
  have stopped := List.head?_dropWhile_not test cursor.rest
  rw [show (cursor.rest.dropWhile test).head? = some char from head] at stopped
  exact stopped

theorem reads_skipUntil (cursor : Cursor) (found : List Char → Bool) :
    cursor.Reads (takeUntil found cursor.rest) (cursor.skipUntil found) :=
  ⟨(takeUntil_append_dropUntil found cursor.rest).symm, rfl⟩

theorem reads_of_beginsWith {cursor : Cursor} {pattern : List Char}
    (begins : beginsWith pattern cursor.rest) :
    cursor.Reads pattern (cursor.advance pattern.length) := by
  have reads := cursor.reads_advance pattern.length
  rwa [take_of_beginsWith begins] at reads

theorem Reads.eq_advance {cursor next : Cursor} {taken : List Char}
    (reads : cursor.Reads taken next) : cursor.advance taken.length = next := by
  rw [advance, reads.1, List.take_left, List.drop_left, ← reads.2]

theorem Reads.offset_le {cursor next : Cursor} {taken : List Char}
    (reads : cursor.Reads taken next) : cursor.offset ≤ next.offset := by
  rw [reads.2]
  exact Nat.le_add_right _ _

theorem Reads.offset_lt {cursor next : Cursor} {taken : List Char}
    (reads : cursor.Reads taken next) (some : taken ≠ []) :
    cursor.offset < next.offset := by
  rw [reads.2]
  exact Nat.lt_add_of_pos_right (byteLength_pos some)

theorem Reads.eq_of_nil {cursor next : Cursor} (reads : cursor.Reads [] next) :
    cursor = next := by
  obtain ⟨rest_eq, offset_eq⟩ := reads
  cases cursor
  cases next
  simp_all

theorem Reads.ne_nil {cursor next : Cursor} {taken : List Char}
    (reads : cursor.Reads taken next)
    (shorter : next.rest.length < cursor.rest.length) : taken ≠ [] := by
  rintro rfl
  rw [reads.1, List.nil_append] at shorter
  exact Nat.lt_irrefl _ shorter

/-- The cursor stands at its offset in the text, with the rest of the text
before it. -/
def Stands (cursor : Cursor) (chars : List Char) : Prop :=
  ∃ before, chars = before ++ cursor.rest ∧ byteLength before = cursor.offset

theorem stands_start (chars : List Char) : Stands ⟨0, chars⟩ chars :=
  ⟨[], rfl, rfl⟩

theorem Stands.reads {cursor next : Cursor} {taken chars : List Char}
    (stands : cursor.Stands chars) (reads : cursor.Reads taken next) :
    next.Stands chars := by
  obtain ⟨before, rfl, size⟩ := stands
  refine ⟨before ++ taken, ?_, ?_⟩
  · rw [reads.1, List.append_assoc]
  · rw [byteLength_append, size, reads.2]

theorem Stands.slice? {cursor next : Cursor} {taken chars : List Char}
    (stands : cursor.Stands chars) (reads : cursor.Reads taken next) :
    Text.slice? chars cursor.offset next.offset = some taken := by
  obtain ⟨before, rfl, size⟩ := stands
  exact slice?_eq_some.mpr ⟨before, next.rest, by rw [reads.1], size, reads.2⟩

theorem Stands.offset_eq_of_nil {cursor : Cursor} {chars : List Char}
    (stands : cursor.Stands chars) (done : cursor.rest = []) :
    cursor.offset = byteLength chars := by
  obtain ⟨before, rfl, size⟩ := stands
  rw [done, List.append_nil, size]

end Stencil.Cursor
