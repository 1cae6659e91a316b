import Stencil.Proofs.Cursor

namespace Stencil.Text

/-! The bytes of a text in UTF-8, each as the character of its number. All that
is looked for in a template is ASCII, so looking through the bytes and looking
through the characters ends at the same place. -/

def octetsOf (char : Char) : List Char :=
  (String.utf8EncodeChar char).map Char.ofUInt8

def octets (chars : List Char) : List Char :=
  chars.flatMap octetsOf

def isNarrow (char : Char) : Bool :=
  char.toNat < 128

theorem isNarrow_iff {char : Char} : isNarrow char ↔ char.toNat ≤ 0x7f := by
  rw [isNarrow, decide_eq_true_eq]
  omega

theorem toNat_ofUInt8 (byte : UInt8) : (Char.ofUInt8 byte).toNat = byte.toNat :=
  UInt8.toNat_toUInt32 byte

theorem octetsOf_narrow {char : Char} (narrow : isNarrow char) :
    octetsOf char = [char] := by
  have bound : char.val.toNat ≤ 0x7f := isNarrow_iff.mp narrow
  unfold octetsOf String.utf8EncodeChar
  rw [if_pos bound, List.map_singleton, List.singleton_inj]
  apply Char.ext
  apply UInt32.toNat_inj.mp
  change (Char.ofUInt8 _).toNat = char.val.toNat
  rw [toNat_ofUInt8, UInt8.toNat_ofNat']
  omega

theorem high_of_mem_utf8EncodeChar {char : Char} {byte : UInt8}
    (wide : ¬ isNarrow char) (member : byte ∈ String.utf8EncodeChar char) :
    128 ≤ byte.toNat := by
  have bound : ¬ char.val.toNat ≤ 0x7f := mt isNarrow_iff.mpr wide
  unfold String.utf8EncodeChar at member
  rw [if_neg bound] at member
  split at member
  · simp only [List.mem_cons, List.not_mem_nil, or_false] at member
    rcases member with rfl | rfl <;> rw [UInt8.toNat_ofNat'] <;> omega
  · split at member
    · simp only [List.mem_cons, List.not_mem_nil, or_false] at member
      rcases member with rfl | rfl | rfl <;> rw [UInt8.toNat_ofNat'] <;> omega
    · simp only [List.mem_cons, List.not_mem_nil, or_false] at member
      rcases member with rfl | rfl | rfl | rfl <;> rw [UInt8.toNat_ofNat'] <;>
        omega

theorem wide_of_mem_octetsOf {char octet : Char} (wide : ¬ isNarrow char)
    (member : octet ∈ octetsOf char) : ¬ isNarrow octet := by
  obtain ⟨byte, encoded, rfl⟩ := List.mem_map.mp member
  have high := high_of_mem_utf8EncodeChar wide encoded
  rw [isNarrow_iff, toNat_ofUInt8]
  omega

@[simp] theorem length_octetsOf (char : Char) :
    (octetsOf char).length = char.utf8Size := by
  simp [octetsOf]

theorem octetsOf_ne_nil (char : Char) : octetsOf char ≠ [] := by
  apply List.ne_nil_of_length_pos
  rw [length_octetsOf]
  exact char.utf8Size_pos

@[simp] theorem octets_nil : octets [] = [] := rfl

@[simp] theorem octets_cons (char : Char) (rest : List Char) :
    octets (char :: rest) = octetsOf char ++ octets rest := rfl

theorem octets_cons_narrow {char : Char} (narrow : isNarrow char)
    (rest : List Char) :
    octets (char :: rest) = char :: octets rest := by
  rw [octets_cons, octetsOf_narrow narrow, List.singleton_append]

@[simp] theorem octets_append (left right : List Char) :
    octets (left ++ right) = octets left ++ octets right := by
  simp [octets]

@[simp] theorem length_octets (chars : List Char) :
    (octets chars).length = byteLength chars := by
  induction chars with
  | nil => rfl
  | cons char rest induction => simp [induction]

theorem octets_cases (chars : List Char) :
    chars = [] ∨
      (∃ char rest, chars = char :: rest ∧ isNarrow char ∧
        octets chars = char :: octets rest) ∨
      ∃ char rest octet more,
        chars = char :: rest ∧ ¬ isNarrow char ∧ ¬ isNarrow octet ∧
        (∀ other ∈ more, ¬ isNarrow other) ∧
        octets chars = octet :: more ++ octets rest := by
  cases chars with
  | nil => exact .inl rfl
  | cons char rest =>
      by_cases narrow : isNarrow char
      · exact .inr (.inl ⟨char, rest, rfl, narrow,
          octets_cons_narrow narrow rest⟩)
      · obtain ⟨octet, more, bytes⟩ :=
          List.exists_cons_of_ne_nil (octetsOf_ne_nil char)
        have wide : ∀ other ∈ octet :: more, ¬ isNarrow other := by
          rw [← bytes]
          exact fun other => wide_of_mem_octetsOf narrow
        refine .inr (.inr ⟨char, rest, octet, more, rfl, narrow,
          wide octet (List.mem_cons_self ..),
          fun other member => wide other (List.mem_cons_of_mem _ member), ?_⟩)
        rw [octets_cons, bytes]

section Tests

theorem isAlpha_of_wide {char : Char} (wide : ¬ isNarrow char) :
    char.isAlpha = false := by
  rw [isNarrow_iff] at wide
  unfold Char.isAlpha Char.isUpper Char.isLower
  simp [UInt32.le_iff_toNat_le]
  omega

theorem isLower_of_wide {char : Char} (wide : ¬ isNarrow char) :
    char.isLower = false := by
  rw [isNarrow_iff] at wide
  unfold Char.isLower
  simp [UInt32.le_iff_toNat_le]
  omega

theorem isDigit_of_wide {char : Char} (wide : ¬ isNarrow char) :
    char.isDigit = false := by
  rw [isNarrow_iff] at wide
  unfold Char.isDigit
  simp [UInt32.le_iff_toNat_le]
  omega

theorem beq_of_wide {char other : Char} (wide : ¬ isNarrow char)
    (narrow : isNarrow other) :
    (char == other) = false := by
  apply beq_false_of_ne
  rintro rfl
  exact wide narrow

theorem isTagBlank_of_wide {char : Char} (wide : ¬ isNarrow char) :
    isTagBlank char = false := by
  rw [isTagBlank, beq_of_wide wide rfl, beq_of_wide wide rfl,
    beq_of_wide wide rfl, beq_of_wide wide rfl, beq_of_wide wide rfl]
  rfl

/-- The test does not tell wide characters from each other. -/
def AsciiTest (test : Char → Bool) : Prop :=
  ∀ left right, ¬ isNarrow left → ¬ isNarrow right → test left = test right

variable {test : Char → Bool}

theorem asciiTest_of_wide (answer : Bool)
    (wide : ∀ char, ¬ isNarrow char → test char = answer) :
    AsciiTest test := by
  intro left right leftWide rightWide
  rw [wide left leftWide, wide right rightWide]

theorem asciiTest_isAlpha : AsciiTest Char.isAlpha :=
  asciiTest_of_wide false fun _ => isAlpha_of_wide

theorem asciiTest_isLower : AsciiTest Char.isLower :=
  asciiTest_of_wide false fun _ => isLower_of_wide

theorem asciiTest_isTagBlank : AsciiTest isTagBlank :=
  asciiTest_of_wide false fun _ => isTagBlank_of_wide

theorem asciiTest_beq {other : Char} (narrow : isNarrow other) :
    AsciiTest fun char => char == other :=
  asciiTest_of_wide false fun _ wide => beq_of_wide wide narrow

theorem asciiTest_bne {other : Char} (narrow : isNarrow other) :
    AsciiTest fun char => char != other := by
  refine asciiTest_of_wide true fun char wide => ?_
  rw [bne, beq_of_wide wide narrow]
  rfl

theorem AsciiTest.all_octetsOf (ascii : AsciiTest test) (char : Char) :
    ∀ octet ∈ octetsOf char, test octet = test char := by
  intro octet member
  by_cases narrow : isNarrow char
  · rw [octetsOf_narrow narrow, List.mem_singleton] at member
    rw [member]
  · exact ascii octet char (wide_of_mem_octetsOf narrow member) narrow

theorem exists_cons_of_headD {chars : List Char} {mark : Char}
    (visible : mark ≠ '\x00') (head : chars.headD '\x00' == mark) :
    ∃ rest, chars = mark :: rest := by
  cases chars with
  | nil => exact absurd (eq_of_beq head).symm visible
  | cons char rest => exact ⟨rest, by rw [← eq_of_beq head]; rfl⟩

theorem headD_octets (ascii : AsciiTest test) (chars : List Char) :
    test ((octets chars).headD '\x00') = test (chars.headD '\x00') := by
  rcases octets_cases chars with rfl | ⟨char, rest, rfl, _, bytes⟩ |
    ⟨char, rest, octet, more, rfl, wide, wideOctet, _, bytes⟩
  · rfl
  · rw [bytes]
    rfl
  · rw [bytes]
    exact ascii octet char wideOctet wide

theorem takeWhile_octets (ascii : AsciiTest test) (chars : List Char) :
    (octets chars).takeWhile test = octets (chars.takeWhile test) := by
  induction chars with
  | nil => rfl
  | cons char rest induction =>
      have alike := ascii.all_octetsOf char
      by_cases passes : test char
      · rw [List.takeWhile_cons_of_pos passes, octets_cons, octets_cons,
          List.takeWhile_append_of_pos
            (fun octet member => by rw [alike octet member, passes]),
          induction]
      · obtain ⟨octet, more, bytes⟩ :=
          List.exists_cons_of_ne_nil (octetsOf_ne_nil char)
        have fails : ¬ test octet := by
          rw [alike octet (by rw [bytes]; exact List.mem_cons_self ..)]
          exact passes
        rw [List.takeWhile_cons_of_neg passes, octets_cons, bytes,
          List.cons_append, List.takeWhile_cons_of_neg fails, octets_nil]

end Tests

section Searches

/-- What is looked for begins with a narrow character, and is found among the
bytes where it is found among the characters. -/
structure AsciiSearch (found : List Char → Bool) : Prop where
  wide : ∀ char rest, ¬ isNarrow char → found (char :: rest) = false
  octets : ∀ chars, found (octets chars) = found chars

variable {found : List Char → Bool}

theorem takeUntil_wide
    (wide : ∀ char rest, ¬ isNarrow char → found (char :: rest) = false)
    {left : List Char} (right : List Char)
    (all : ∀ char ∈ left, ¬ isNarrow char) :
    takeUntil found (left ++ right) = left ++ takeUntil found right := by
  induction left with
  | nil => rfl
  | cons char rest induction =>
      have here := wide char (rest ++ right) (all char (List.mem_cons_self ..))
      rw [List.cons_append, takeUntil, here,
        induction fun other member => all other (List.mem_cons_of_mem _ member)]
      rfl

theorem takeUntil_octets (search : AsciiSearch found) (chars : List Char) :
    takeUntil found (octets chars) = octets (takeUntil found chars) := by
  induction chars with
  | nil => rfl
  | cons char rest induction =>
      by_cases narrow : isNarrow char
      · have same := search.octets (char :: rest)
        rw [octets_cons_narrow narrow] at same ⊢
        rw [takeUntil, takeUntil, same, induction]
        split
        · rfl
        · rw [octets_cons_narrow narrow]
      · rw [octets_cons, takeUntil_wide search.wide _ fun octet =>
          wide_of_mem_octetsOf narrow, induction, takeUntil,
          search.wide char rest narrow]
        rfl

theorem beginsWith_octets {pattern : List Char}
    (narrow : ∀ char ∈ pattern, isNarrow char) (chars : List Char) :
    beginsWith pattern (octets chars) = beginsWith pattern chars := by
  induction pattern generalizing chars with
  | nil => simp [beginsWith]
  | cons first pattern induction =>
      have here := narrow first (List.mem_cons_self ..)
      have later : ∀ char ∈ pattern, isNarrow char :=
        fun char member => narrow char (List.mem_cons_of_mem _ member)
      rcases octets_cases chars with rfl | ⟨char, rest, rfl, _, bytes⟩ |
        ⟨char, rest, octet, more, rfl, wide, wideOctet, _, bytes⟩
      · rfl
      · rw [bytes]
        unfold beginsWith at induction ⊢
        rw [List.isPrefixOf_cons_cons, List.isPrefixOf_cons_cons,
          induction later]
      · have octetDiffers : first ≠ octet := fun same => wideOctet (same ▸ here)
        have charDiffers : first ≠ char := fun same => wide (same ▸ here)
        rw [bytes, beginsWith, beginsWith, List.cons_append,
          List.isPrefixOf_cons_cons, List.isPrefixOf_cons_cons,
          beq_false_of_ne octetDiffers, beq_false_of_ne charDiffers]
        rfl

theorem asciiSearch_beginsWith {first : Char} {pattern : List Char}
    (narrow : ∀ char ∈ first :: pattern, isNarrow char) :
    AsciiSearch (beginsWith (first :: pattern)) := by
  refine ⟨?_, beginsWith_octets narrow⟩
  intro char rest wide
  have differs : first ≠ char := fun same =>
    wide (same ▸ narrow first (List.mem_cons_self ..))
  rw [beginsWith, List.isPrefixOf_cons_cons, beq_false_of_ne differs]
  rfl

theorem takeUntil_beginsWith_singleton (mark : Char) (chars : List Char) :
    takeUntil (beginsWith [mark]) chars = chars.takeWhile fun char =>
      char != mark := by
  induction chars with
  | nil => rfl
  | cons char rest induction =>
      by_cases same : char = mark
      · subst same
        simp [takeUntil, beginsWith]
      · simp [takeUntil, beginsWith, induction, same, Ne.symm same]

section IgnoringCase

theorem toLower_of_wide {char : Char} (wide : ¬ isNarrow char) :
    char.toLower = char := by
  rw [isNarrow_iff] at wide
  unfold Char.toLower
  apply dif_neg
  rintro ⟨_, last⟩
  have small : char.toNat ≤ 90 := last
  omega

theorem isNarrow_toLower {char : Char} (narrow : isNarrow char) :
    isNarrow char.toLower := by
  unfold Char.toLower
  split
  · rename_i upper
    have last : char.val.toNat ≤ 90 := upper.2
    have small : (char.val + ('a'.val - 'A'.val)).toNat ≤ 122 := by
      have gap : ('a'.val - 'A'.val).toNat = 32 := rfl
      rw [UInt32.toNat_add]
      omega
    exact isNarrow_iff.mpr (Nat.le_trans small (by decide))
  · exact narrow

theorem utf8Size_of_narrow {char : Char} (narrow : isNarrow char) :
    char.utf8Size = 1 := by
  rw [← length_octetsOf, octetsOf_narrow narrow]
  rfl

theorem utf8Size_toLower (char : Char) :
    char.toLower.utf8Size = char.utf8Size := by
  by_cases narrow : isNarrow char
  · rw [utf8Size_of_narrow narrow, utf8Size_of_narrow (isNarrow_toLower narrow)]
  · rw [toLower_of_wide narrow]

theorem beginsWithIgnoringCase_cons (first char : Char)
    (pattern rest : List Char) :
    beginsWithIgnoringCase (first :: pattern) (char :: rest) =
      (char.toLower == first.toLower &&
        beginsWithIgnoringCase pattern rest) := by
  simp [beginsWithIgnoringCase]

theorem beginsWithIgnoringCase_octets {pattern : List Char}
    (narrow : ∀ char ∈ pattern, isNarrow char) (chars : List Char) :
    beginsWithIgnoringCase pattern (octets chars) =
      beginsWithIgnoringCase pattern chars := by
  induction pattern generalizing chars with
  | nil => rfl
  | cons first pattern induction =>
      have here := isNarrow_toLower (narrow first (List.mem_cons_self ..))
      have later : ∀ char ∈ pattern, isNarrow char :=
        fun char member => narrow char (List.mem_cons_of_mem _ member)
      rcases octets_cases chars with rfl | ⟨char, rest, rfl, _, bytes⟩ |
        ⟨char, rest, octet, more, rfl, wide, wideOctet, _, bytes⟩
      · rfl
      · rw [bytes, beginsWithIgnoringCase_cons, beginsWithIgnoringCase_cons,
          induction later]
      · rw [bytes, List.cons_append, beginsWithIgnoringCase_cons,
          beginsWithIgnoringCase_cons, toLower_of_wide wide,
          toLower_of_wide wideOctet, beq_of_wide wide here,
          beq_of_wide wideOctet here]
        rfl

theorem asciiSearch_beginsWithIgnoringCase {first : Char} {pattern : List Char}
    (narrow : ∀ char ∈ first :: pattern, isNarrow char) :
    AsciiSearch (beginsWithIgnoringCase (first :: pattern)) := by
  refine ⟨?_, beginsWithIgnoringCase_octets narrow⟩
  intro char rest wide
  have here := isNarrow_toLower (narrow first (List.mem_cons_self ..))
  rw [beginsWithIgnoringCase_cons, toLower_of_wide wide, beq_of_wide wide here]
  rfl

end IgnoringCase

end Searches

end Stencil.Text

namespace Stencil.Cursor

open Text

theorem Stands.octets_drop {cursor : Cursor} {chars : List Char}
    (stands : cursor.Stands chars) :
    (octets chars).drop cursor.offset = octets cursor.rest := by
  obtain ⟨before, rfl, size⟩ := stands
  rw [octets_append, ← size, ← length_octets, List.drop_left]

theorem skipUntil_beginsWith_singleton (cursor : Cursor) (mark : Char) :
    cursor.skipUntil (beginsWith [mark]) = cursor.skipWhile fun char =>
      char != mark := by
  have taken := takeUntil_beginsWith_singleton mark cursor.rest
  have whole := takeUntil_append_dropUntil (beginsWith [mark]) cursor.rest
  have same : dropUntil (beginsWith [mark]) cursor.rest =
      cursor.rest.dropWhile fun char => char != mark := by
    rw [taken] at whole
    apply List.append_cancel_left
    rw [whole, List.takeWhile_append_dropWhile]
  rw [skipUntil, skipWhile, taken, same]

end Stencil.Cursor
