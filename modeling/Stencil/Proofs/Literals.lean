import Stencil.Emit.Quote

namespace Stencil.Emit

/-! A quoted text ends at its closing mark and nowhere before, holds no control
character, and stands for the bytes of the text. -/

section Meaning

def shortEscapes : List (Char × Char) :=
  [('\\', '\\'), ('"', '"'), ('n', '\n'), ('r', '\r'), ('t', '\t')]

def hexValue? (digit : Char) : Option Nat :=
  if digit.isDigit then some (digit.toNat - '0'.toNat)
  else if 'a' ≤ digit ∧ digit ≤ 'f' then some (digit.toNat - 'a'.toNat + 10)
  else if 'A' ≤ digit ∧ digit ≤ 'F' then some (digit.toNat - 'A'.toNat + 10)
  else none

/-- The bytes that the inside of an interpreted string literal stands for.
Behind a backslash stands a short escape, or an `x` and the two digits of a
byte; a mark or a line feed cannot stand alone. -/
def meaning? : List Char → Option (List UInt8)
  | [] => some []
  | '\\' :: 'x' :: high :: low :: rest => do
      let upper ← hexValue? high
      let lower ← hexValue? low
      let bytes ← meaning? rest
      return UInt8.ofNat (16 * upper + lower) :: bytes
  | '\\' :: letter :: rest => do
      let char ← shortEscapes.lookup letter
      let bytes ← meaning? rest
      return String.utf8EncodeChar char ++ bytes
  | char :: rest =>
      if char = '\\' ∨ char = '"' ∨ char = '\n' then none
      else (meaning? rest).map (String.utf8EncodeChar char ++ ·)

end Meaning

section Escapes

def isControl (char : Char) : Bool :=
  char.toNat < 0x20 || char.toNat == 0x7f

theorem escape_cases (char : Char) :
    (∃ letter, (letter, char) ∈ shortEscapes ∧ escape char = ['\\', letter]) ∨
      (isControl char ∧ escape char = '\\' :: 'x' :: hexDigits char.toNat) ∨
      (char ≠ '\\' ∧ char ≠ '"' ∧ ¬ isControl char ∧ escape char = [char]) := by
  unfold escape
  split
  · exact .inl ⟨'"', by simp [shortEscapes, *], rfl⟩
  split
  · exact .inl ⟨'\\', by simp [shortEscapes, *], rfl⟩
  split
  · exact .inl ⟨'n', by simp [shortEscapes, *], rfl⟩
  split
  · exact .inl ⟨'r', by simp [shortEscapes, *], rfl⟩
  split
  · exact .inl ⟨'t', by simp [shortEscapes, *], rfl⟩
  split
  · rename_i control
    exact .inr (.inl ⟨control, rfl⟩)
  · rename_i mark backslash _ _ _ plain
    exact .inr (.inr ⟨backslash, mark, plain, rfl⟩)

theorem hexValue?_digitChar :
    ∀ value < 16, hexValue? (Nat.digitChar value) = some value := by
  decide

theorem plain_digitChar : ∀ value < 16, ¬ isControl (Nat.digitChar value) ∧
    Nat.digitChar value ≠ '\\' ∧ Nat.digitChar value ≠ '"' := by
  decide

theorem toNat_le_of_isControl {char : Char} (control : isControl char) :
    char.toNat ≤ 0x7f := by
  rcases Bool.or_eq_true_iff.mp control with low | delete
  · have low := of_decide_eq_true low
    omega
  · exact Nat.le_of_eq (eq_of_beq delete)

theorem not_isControl_escape (char : Char) :
    ∀ written ∈ escape char, ¬ isControl written := by
  rcases escape_cases char with ⟨letter, short, same⟩ | ⟨control, same⟩ |
    ⟨_, _, plain, same⟩
  · have letters : shortEscapes.all fun entry => !isControl entry.1 := rfl
    rw [same]
    simp only [List.mem_cons, List.not_mem_nil, or_false]
    rintro written (rfl | rfl)
    · decide
    · simpa using List.all_eq_true.mp letters _ short
  · have small := toNat_le_of_isControl control
    rw [same, hexDigits]
    simp only [List.mem_cons, List.not_mem_nil, or_false]
    rintro written (rfl | rfl | rfl | rfl)
    · decide
    · decide
    · exact (plain_digitChar _ (by omega)).1
    · exact (plain_digitChar _ (by omega)).1
  · rw [same]
    intro written member
    rwa [List.mem_singleton.mp member]

theorem meaning?_short {letter char : Char}
    (short : (letter, char) ∈ shortEscapes) (rest : List Char) :
    meaning? ('\\' :: letter :: rest) =
      (meaning? rest).map (String.utf8EncodeChar char ++ ·) := by
  have found : shortEscapes.lookup letter = some char ∧ letter ≠ 'x' := by
    simp only [shortEscapes, List.mem_cons, Prod.mk.injEq, List.not_mem_nil,
      or_false] at short
    rcases short with ⟨rfl, rfl⟩ | ⟨rfl, rfl⟩ | ⟨rfl, rfl⟩ | ⟨rfl, rfl⟩ |
      ⟨rfl, rfl⟩ <;> decide
  rw [meaning?, found.1]
  · cases meaning? rest <;> rfl
  · rintro _ _ _ rfl _
    exact found.2 rfl

theorem meaning?_number {code : Nat} (small : code < 256) (rest : List Char) :
    meaning? ('\\' :: 'x' :: hexDigits code ++ rest) =
      (meaning? rest).map (UInt8.ofNat code :: ·) := by
  have upper := hexValue?_digitChar (code / 16) (by omega)
  have lower := hexValue?_digitChar (code % 16) (by omega)
  have whole : 16 * (code / 16) + code % 16 = code := Nat.div_add_mod code 16
  simp only [hexDigits, List.cons_append, List.nil_append, meaning?, upper,
    lower, Option.bind_eq_bind, Option.bind_some, whole]
  cases meaning? rest <;> rfl

theorem meaning?_plain {char : Char} (backslash : char ≠ '\\')
    (mark : char ≠ '"') (plain : ¬ isControl char) (rest : List Char) :
    meaning? (char :: rest) =
      (meaning? rest).map (String.utf8EncodeChar char ++ ·) := by
  have feed : char ≠ '\n' := by
    rintro rfl
    exact plain rfl
  rw [meaning?, if_neg (by simp [backslash, mark, feed])]
  · simp [backslash]
  · simp [backslash]

theorem utf8EncodeChar_of_isControl {char : Char} (control : isControl char) :
    String.utf8EncodeChar char = [UInt8.ofNat char.toNat] := by
  have small : char.val.toNat ≤ 0x7f := toNat_le_of_isControl control
  unfold String.utf8EncodeChar
  rw [if_pos small]
  rfl

/-- What is written for a character stands for its bytes, whatever follows. -/
theorem meaning?_escape (char : Char) (rest : List Char) :
    meaning? (escape char ++ rest) =
      (meaning? rest).map (String.utf8EncodeChar char ++ ·) := by
  rcases escape_cases char with
    ⟨letter, short, same⟩ | ⟨control, same⟩ | ⟨backslash, mark, plain, same⟩
  · rw [same]
    exact meaning?_short short rest
  · have small := toNat_le_of_isControl control
    rw [same, meaning?_number (by omega), utf8EncodeChar_of_isControl control]
    rfl
  · rw [same]
    exact meaning?_plain backslash mark plain rest

theorem toList_toUTF8 (text : String) :
    text.toUTF8.data.toList = text.toList.flatMap String.utf8EncodeChar := by
  have encoded : text.toByteArray = text.toList.utf8Encode := by
    rw [← String.toByteArray_ofList, String.ofList_toList]
  rw [String.toUTF8_eq_toByteArray, encoded, List.utf8Encode,
    List.data_toByteArray]

theorem meaning?_flatMap_escape (chars : List Char) :
    meaning? (chars.flatMap escape) =
      some (chars.flatMap String.utf8EncodeChar) := by
  induction chars with
  | nil => rfl
  | cons char rest induction =>
      rw [List.flatMap_cons, meaning?_escape, induction, List.flatMap_cons]
      rfl

end Escapes

section Marks

/-- A text in which every mark is behind a backslash of its own. -/
inductive Guarded : List Char → Prop
  | nil : Guarded []
  | plain {char : Char} {rest : List Char} (backslash : char ≠ '\\')
      (mark : char ≠ '"')
      (behind : Guarded rest) : Guarded (char :: rest)
  | escaped (char : Char) {rest : List Char} (behind : Guarded rest) :
      Guarded ('\\' :: char :: rest)

theorem Guarded.escape (char : Char) {rest : List Char}
    (behind : Guarded rest) :
    Guarded (Emit.escape char ++ rest) := by
  rcases escape_cases char with
    ⟨letter, _, same⟩ | ⟨control, same⟩ | ⟨backslash, mark, _, same⟩
  · rw [same]
    exact .escaped letter behind
  · have small := toNat_le_of_isControl control
    have upper := plain_digitChar (char.toNat / 16) (by omega)
    have lower := plain_digitChar (char.toNat % 16) (by omega)
    rw [same]
    exact .escaped 'x' (.plain upper.2.1 upper.2.2
      (.plain lower.2.1 lower.2.2 behind))
  · rw [same]
    exact .plain backslash mark behind

theorem guarded_flatMap_escape (chars : List Char) :
    Guarded (chars.flatMap Emit.escape) := by
  induction chars with
  | nil => exact .nil
  | cons char rest induction =>
      rw [List.flatMap_cons]
      exact induction.escape char

def backslashes (chars : List Char) : Nat :=
  (chars.reverse.takeWhile fun char => char == '\\').length

theorem backslashes_concat (chars : List Char) (char : Char) :
    backslashes (chars ++ [char]) = if char = '\\' then backslashes chars + 1
    else 0 := by
  unfold backslashes
  rw [List.reverse_concat]
  split
  · rename_i same
    rw [List.takeWhile_cons_of_pos (by simp [same]), List.length_cons]
  · rename_i other
    rw [List.takeWhile_cons_of_neg (by simp [other]), List.length_nil]

theorem Guarded.odd_backslashes {chars : List Char} (guarded : Guarded chars)
    {lead before after : List Char} (even : backslashes lead % 2 = 0)
    (shape : chars = before ++ '"' :: after) :
    backslashes (lead ++ before) % 2 = 1 := by
  induction guarded generalizing lead before with
  | nil => simp at shape
  | @plain char rest backslash mark _ induction =>
      cases before with
      | nil => exact absurd (List.cons.inj shape).1 mark
      | cons first before =>
          obtain ⟨rfl, further⟩ := List.cons.inj shape
          rw [List.append_cons]
          refine induction ?_ further
          rw [backslashes_concat, if_neg backslash]
  | @escaped char rest _ induction =>
      match before, shape with
      | [first], shape =>
          obtain ⟨rfl, _⟩ := List.cons.inj shape
          rw [backslashes_concat, if_pos rfl]
          omega
      | first :: second :: before, shape =>
          rw [List.cons_append, List.cons_append, List.cons.injEq,
            List.cons.injEq] at shape
          obtain ⟨rfl, rfl, further⟩ := shape
          rw [List.append_cons, List.append_cons]
          refine induction ?_ further
          rw [backslashes_concat, backslashes_concat, if_pos rfl]
          split <;> omega

end Marks

/-- A quoted text is enclosed in marks and holds no control character. Inside of
it each mark is behind an odd number of backslashes, so it does not end the
literal, and the whole inside stands for the bytes of the text. -/
theorem quote_means_text (text : String) :
    ∃ inside, (quote text).toList = '"' :: (inside ++ ['"']) ∧
      (∀ char ∈ (quote text).toList, 0x20 ≤ char.toNat ∧ char.toNat ≠ 0x7f) ∧
      (∀ before after, inside = before ++ '"' :: after →
        backslashes before % 2 = 1) ∧
      meaning? inside = some text.toUTF8.data.toList := by
  have shape : (quote text).toList =
      '"' :: (text.toList.flatMap escape ++ ['"']) := by
    rw [quote, String.toList_ofList, List.cons_append]
  refine ⟨_, shape, ?_, ?_, ?_⟩
  · have printable : ∀ char ∈ (quote text).toList, ¬ isControl char := by
      rw [shape]
      intro char member
      rcases List.mem_cons.mp member with rfl | member
      · decide
      rcases List.mem_append.mp member with inside | last
      · obtain ⟨source, _, written⟩ := List.mem_flatMap.mp inside
        exact not_isControl_escape source char written
      · rw [List.mem_singleton.mp last]
        decide
    intro char member
    have plain := printable char member
    rw [isControl, Bool.or_eq_true, decide_eq_true_eq, beq_iff_eq] at plain
    omega
  · intro before after shape
    have even : backslashes [] % 2 = 0 := rfl
    exact (guarded_flatMap_escape text.toList).odd_backslashes even shape
  · rw [meaning?_flatMap_escape, ← toList_toUTF8]

end Stencil.Emit
