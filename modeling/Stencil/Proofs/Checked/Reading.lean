import Stencil.Proofs.Octets

namespace Stencil.Checked

open Text

/-! Reading a text by its bytes. Every slice and every index is checked: a
reading has no outcome where one is out of range or inside a character. -/

abbrev Reading (ε : Type) := ExceptT ε Option

namespace Reading

variable {ε α β : Type}

def settled (outcome : Except ε α) : Reading ε α :=
  ExceptT.mk (some outcome)

@[simp] theorem lift_eq (value : α) :
    (liftM (some value) : Reading ε α) = settled (.ok value) := rfl

@[simp] theorem settled_ok_bind (value : α) (next : α → Reading ε β) :
    settled (.ok value) >>= next = next value := rfl

theorem bind_settled {first : Reading ε α} {outcome : Except ε α}
    {next : α → Reading ε β} {following : α → Except ε β}
    (same : first = settled outcome)
    (later :
      ∀ value, outcome = .ok value → next value = settled (following value)) :
    first >>= next = settled (outcome >>= following) := by
  subst same
  cases outcome with
  | error failure => rfl
  | ok value => exact later value rfl

theorem mapM_settled {step : α → Reading ε β} {outcome : α → Except ε β}
    {items : List α}
    (same : ∀ item ∈ items, step item = settled (outcome item)) :
    items.mapM step = settled (items.mapM outcome) := by
  induction items with
  | nil => rfl
  | cons item rest induction =>
      rw [List.mapM_cons, List.mapM_cons]
      apply bind_settled (same item (List.mem_cons_self ..))
      intro first _
      apply bind_settled (induction fun other member => same other
        (List.mem_cons_of_mem _ member))
      intro more _
      rfl

theorem foldlM_settled {step : β → α → Reading ε β}
    {outcome : β → α → Except ε β} {items : List α}
    (same : ∀ item ∈ items, ∀ value,
      step value item = settled (outcome value item))
    (start : β) :
    items.foldlM step start = settled (items.foldlM outcome start) := by
  induction items generalizing start with
  | nil => rfl
  | cons item rest induction =>
      rw [List.foldlM_cons, List.foldlM_cons]
      apply bind_settled (same item (List.mem_cons_self ..) start)
      intro value _
      exact induction (fun other member => same other
        (List.mem_cons_of_mem _ member)) value

def mapError {ε' : Type} (f : ε → ε') (reading : Reading ε α) : Reading ε' α :=
  ExceptT.mk (reading.run.map fun outcome => outcome.mapError f)

@[simp] theorem mapError_settled {ε' : Type} (f : ε → ε')
    (outcome : Except ε α) :
    (settled outcome).mapError f = settled (outcome.mapError f) := rfl

end Reading

def minus? (left right : Nat) : Option Nat :=
  if right ≤ left then some (left - right) else none

@[simp] theorem minus?_add (left right : Nat) :
    minus? (left + right) left = some right := by
  rw [minus?, if_pos (Nat.le_add_right _ _), Nat.add_sub_cancel_left]

section Bytes

variable (chars : List Char)

def bytesFrom (place : Nat) : Option (List Char) :=
  if place ≤ byteLength chars then some ((octets chars).drop place) else none

def bytesBetween (start stop : Nat) : Option (List Char) :=
  if start ≤ stop ∧ stop ≤ byteLength chars then
    some (((octets chars).drop start).take (stop - start))
  else none

def byteAt (place : Nat) : Option Char :=
  (octets chars)[place]?

def peek (place : Nat) : Char :=
  (octets chars).getD place '\x00'

def atEnd (place : Nat) : Bool :=
  byteLength chars ≤ place

def skipWhile (test : Char → Bool) (place : Nat) : Nat :=
  place + (((octets chars).drop place).takeWhile test).length

def skipUntil (found : List Char → Bool) (place : Nat) : Nat :=
  place + (takeUntil found ((octets chars).drop place)).length

def find? (needle : List Char) (place : Nat) : Option Nat :=
  let stop := skipUntil chars (beginsWith needle) place
  if stop < byteLength chars then some stop else none

def onward? (place next : Nat) :
    Option { next : Nat // byteLength chars - next <
      byteLength chars - place } :=
  if ahead : place < next ∧ place < byteLength chars then
    some ⟨next, by omega⟩ else none

end Bytes

section Places

variable {chars : List Char} {cursor : Cursor} {test : Char → Bool}
  {found : List Char → Bool}

theorem byteLength_eq (stands : cursor.Stands chars) :
    byteLength chars = cursor.offset + byteLength cursor.rest := by
  obtain ⟨before, rfl, size⟩ := stands
  rw [byteLength_append, size]

theorem skipWhile_eq (stands : cursor.Stands chars) (ascii : AsciiTest test) :
    skipWhile chars test cursor.offset = (cursor.skipWhile test).offset := by
  rw [skipWhile, stands.octets_drop, takeWhile_octets ascii, length_octets]
  rfl

theorem skipUntil_eq (stands : cursor.Stands chars)
    (search : AsciiSearch found) :
    skipUntil chars found cursor.offset = (cursor.skipUntil found).offset := by
  rw [skipUntil, stands.octets_drop, takeUntil_octets search, length_octets]
  rfl

theorem atEnd_eq (stands : cursor.Stands chars) :
    atEnd chars cursor.offset = cursor.rest.isEmpty := by
  rw [atEnd, byteLength_eq stands]
  cases rest : cursor.rest with
  | nil => simp
  | cons char more =>
      have positive := byteLength_pos (List.cons_ne_nil char more)
      rw [decide_eq_false (by omega)]
      rfl

theorem onward?_of_lt {place next : Nat} (ahead : place < next)
    (inside : place < byteLength chars) :
    ∃ shrinks, onward? chars place next = some ⟨next, shrinks⟩ :=
  ⟨_, dif_pos ⟨ahead, inside⟩⟩

theorem onward?_eq (stands : cursor.Stands chars) (more : cursor.rest ≠ [])
    {next : Nat} (ahead : cursor.offset < next) :
    ∃ shrinks, onward? chars cursor.offset next = some ⟨next, shrinks⟩ := by
  have positive := byteLength_pos more
  have size := byteLength_eq stands
  exact onward?_of_lt ahead (by omega)

theorem find?_cases (stands : cursor.Stands chars) {needle : List Char}
    (search : AsciiSearch (beginsWith needle)) :
    (find? chars needle cursor.offset = none ∧
      (cursor.skipUntil (beginsWith needle)).rest = []) ∨
      ∃ char rest,
        find? chars needle cursor.offset =
          some (cursor.skipUntil (beginsWith needle)).offset ∧
        (cursor.skipUntil (beginsWith needle)).rest = char :: rest ∧
        (cursor.skipUntil (beginsWith needle)).Reads needle
          ((cursor.skipUntil (beginsWith needle)).advance needle.length) := by
  have stops := stands.reads (cursor.reads_skipUntil (beginsWith needle))
  have last := atEnd_eq stops
  unfold atEnd at last
  unfold find?
  rw [skipUntil_eq stands search]
  cases shape : (cursor.skipUntil (beginsWith needle)).rest with
  | nil =>
      rw [shape, List.isEmpty_nil, decide_eq_true_eq] at last
      exact .inl ⟨if_neg (Nat.not_lt.mpr last), rfl⟩
  | cons char rest =>
      rw [shape, List.isEmpty_cons, decide_eq_false_iff_not] at last
      refine .inr ⟨char, rest, if_pos (Nat.lt_of_not_le last), rfl, ?_⟩
      apply Cursor.reads_of_beginsWith
      rw [shape]
      exact found_of_dropUntil shape

theorem find?_mark_cases (stands : cursor.Stands chars) {mark : Char}
    (narrow : isNarrow mark) :
    (find? chars [mark] cursor.offset = none ∧
        (cursor.skipWhile fun char => char != mark).rest = []) ∨
      ∃ char rest,
        find? chars [mark] cursor.offset =
          some (cursor.skipWhile fun char => char != mark).offset ∧
        (cursor.skipWhile fun char => char != mark).rest = char :: rest ∧
        ((cursor.skipWhile fun char => char != mark).advance 1).offset =
          (cursor.skipWhile fun char => char != mark).offset + 1 := by
  have search : AsciiSearch (beginsWith [mark]) :=
    asciiSearch_beginsWith (by simpa using narrow)
  have cases := find?_cases stands search
  rw [Cursor.skipUntil_beginsWith_singleton] at cases
  rcases cases with missing | ⟨char, rest, present, shape, closes⟩
  · exact .inl missing
  · refine .inr ⟨char, rest, present, shape, ?_⟩
    have behind := closes.2
    rwa [byteLength_cons, utf8Size_of_narrow narrow] at behind

theorem bytesFrom_eq (stands : cursor.Stands chars) :
    bytesFrom chars cursor.offset = some (octets cursor.rest) := by
  rw [bytesFrom, if_pos, stands.octets_drop]
  rw [byteLength_eq stands]
  exact Nat.le_add_right _ _

theorem peek_test (stands : cursor.Stands chars) (ascii : AsciiTest test) :
    test (peek chars cursor.offset) = test (cursor.rest.headD '\x00') := by
  rw [← headD_octets ascii, ← stands.octets_drop, peek,
    List.headD_eq_head?_getD, List.head?_drop, List.getD_eq_getElem?_getD]

theorem peek_behind (stands : cursor.Stands chars) (ascii : AsciiTest test)
    {pattern : List Char} (size : byteLength pattern = pattern.length)
    (begins : beginsWith pattern cursor.rest) :
    test (peek chars (cursor.offset + pattern.length)) =
      test ((cursor.rest.drop pattern.length).headD '\x00') := by
  have opens := Cursor.reads_of_beginsWith begins
  have place : cursor.offset + pattern.length =
      (cursor.advance pattern.length).offset := by
    rw [opens.2, size]
  rw [place, peek_test (stands.reads opens) ascii]
  rfl

end Places

end Stencil.Checked
