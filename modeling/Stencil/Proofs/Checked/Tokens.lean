import Stencil.Proofs.Checked.Reading
import Stencil.Proofs.Tiling

namespace Stencil.Checked

open Text

/-! Tokens read from the bytes of a text with every slice and every index
checked. No check fails, and the tokens are those that are read from the
characters. -/

section Readers

open Token

variable (chars : List Char)

def textTokens (start stop : Nat) : Option (List Token) :=
  if start = stop then some []
  else do
    let text ← slice? chars start stop
    return [⟨.text (String.ofList text), ⟨start, stop⟩⟩]

def readName (place : Nat) : Option (List Char × Nat) := do
  let stop := skipWhile chars isNamePart place
  let name ← slice? chars place stop
  return (name, stop)

def readQuoted (failure : Failure) (quote : Quote) (mark : Char) (place : Nat) :
    Reading Failure (Attribute.Value × Nat) := do
  match find? chars [mark] (place + 1) with
  | none => throw failure
  | some stop =>
      let text ← slice? chars (place + 1) stop
      return (⟨String.ofList text, quote, ⟨place + 1, stop⟩⟩, stop + 1)

def readUnquoted (failure : Failure) (place : Nat) :
    Reading Failure (Attribute.Value × Nat) := do
  let stop := skipWhile chars isUnquotedPart place
  if atEnd chars stop then throw failure
  else
    let text ← slice? chars place stop
    return (⟨String.ofList text, .unquoted, ⟨place, stop⟩⟩, stop)

def readValue (name tag : String) (start tagStart place : Nat) :
    Reading Failure (Attribute.Value × Nat) :=
  let mark := peek chars place
  if mark == '"' then
    readQuoted chars ⟨.unterminatedValue name tag, start⟩ .double '"' place
  else if mark == '\'' then
    readQuoted chars ⟨.unterminatedValue name tag, start⟩ .single '\'' place
  else readUnquoted chars ⟨.unterminatedTag tag, tagStart⟩ place

def readAttribute (tag : String) (tagStart place : Nat) :
    Reading Failure (Attribute × Nat) := do
  let nameStop := skipWhile chars isAttributeNamePart place
  let name ← slice? chars place nameStop
  let afterName := skipWhile chars isTagBlank nameStop
  if peek chars afterName != '=' || atEnd chars afterName then
    return (⟨String.ofList name, none, ⟨place, afterName⟩⟩, afterName)
  else
    let (value, stop) ← readValue chars (String.ofList name) tag place tagStart
      (skipWhile chars isTagBlank (afterName + 1))
    return (⟨String.ofList name, some value, ⟨place, stop⟩⟩, stop)

def readAttributes (tag : String) (tagStart place : Nat) :
    Reading Failure (List Attribute × Bool × Nat) := do
  let first := skipWhile chars isTagBlank place
  if atEnd chars first then throw ⟨.unterminatedTag tag, tagStart⟩
  else if peek chars first == '>' then return ([], false, first + 1)
  else if peek chars first == '/' && peek chars (first + 1) == '>' then
    return ([], true, first + 2)
  else if peek chars first == '/' then
    let ⟨next, _⟩ ← onward? chars first (first + 1)
    readAttributes tag tagStart next
  else
    let (attr, behind) ← readAttribute chars tag tagStart first
    let ⟨next, _⟩ ← onward? chars first behind
    let (more, selfClosing, stop) ← readAttributes tag tagStart next
    return (attr :: more, selfClosing, stop)
termination_by byteLength chars - place
decreasing_by all_goals
  have skipped : place ≤ first := Nat.le_add_right _ _
  omega

def rawTextStop (closing : List Char) (place : Nat) : Option Nat :=
  if _fits : place + closing.length ≤ byteLength chars then do
    let window ← bytesBetween chars place (place + closing.length)
    if window.map Char.toLower == closing then return place
    else rawTextStop closing (place + 1)
  else some (byteLength chars)
termination_by byteLength chars + 1 - place

def readRawText (name : List Char) (place : Nat) :
    Option (List Token × Nat) := do
  let stop ← rawTextStop chars ('<' :: '/' :: name.map Char.toLower) place
  let tokens ← textTokens chars place stop
  return (tokens, stop)

def readStartTag (place : Nat) : Reading Failure (List Token × Nat) := do
  let (nameChars, behind) ← readName chars (place + 1)
  let name := String.ofList nameChars
  let (attributes, selfClosing, stop) ← readAttributes chars name place behind
  let token : Token :=
    ⟨.startTag ⟨name, attributes, selfClosing⟩, ⟨place, stop⟩⟩
  if isRawTextElement name && !selfClosing then
    let (raw, after) ← readRawText chars nameChars stop
    return (token :: raw, after)
  else return ([token], stop)

def readEndTag (place : Nat) : Reading Failure (List Token × Nat) := do
  let (name, behind) ← readName chars (place + 2)
  match find? chars ['>'] behind with
  | none => throw ⟨.unterminatedEndTag (String.ofList name), place⟩
  | some stop =>
      return ([⟨.endTag (String.ofList name), ⟨place, stop + 1⟩⟩], stop + 1)

def readComment (place : Nat) : Reading Failure (List Token × Nat) := do
  match find? chars ['-', '-', '>'] (place + 4) with
  | none => throw ⟨.unterminatedComment, place⟩
  | some stop =>
      let text ← slice? chars (place + 4) stop
      return ([⟨.comment (String.ofList text), ⟨place, stop + 3⟩⟩], stop + 3)

def readDoctype (place : Nat) : Reading Failure (List Token × Nat) := do
  match find? chars ['>'] (place + 2) with
  | none => throw ⟨.unterminatedDeclaration, place⟩
  | some stop =>
      let text ← slice? chars (place + 2) stop
      return ([⟨.doctype (String.ofList (trim text)), ⟨place, stop + 1⟩⟩],
        stop + 1)

/-- The second byte may lie inside the first character; no markup begins
there. -/
def readText (place : Nat) : Option (List Token × Nat) := do
  let stop := skipUntil chars beginsMarkup (place + 1)
  let tokens ← textTokens chars place stop
  return (tokens, stop)

def readNext (place : Nat) : Reading Failure (List Token × Nat) := do
  if peek chars place != '<' then readText chars place
  else
    let bytes ← bytesFrom chars place
    if beginsWith ['<', '!', '-', '-'] bytes then readComment chars place
    else if beginsWith ['<', '!'] bytes then readDoctype chars place
    else if beginsWith ['<', '/'] bytes && (peek chars (place + 2)).isAlpha then
      readEndTag chars place
    else if (peek chars (place + 1)).isAlpha then readStartTag chars place
    else readText chars place

def scanFrom (place : Nat) : Reading Failure (List Token) := do
  if atEnd chars place then
    return [⟨.eof, ⟨byteLength chars, byteLength chars⟩⟩]
  else
    let (tokens, behind) ← readNext chars place
    let ⟨next, _⟩ ← onward? chars place behind
    let more ← scanFrom next
    return tokens ++ more
termination_by byteLength chars - place

end Readers

section Tests

open Token

theorem asciiTest_isNamePart : AsciiTest isNamePart := by
  refine asciiTest_of_wide false fun char wide => ?_
  rw [isNamePart, Char.isAlphanum, isAlpha_of_wide wide, isDigit_of_wide wide,
    beq_of_wide wide rfl, beq_of_wide wide rfl, beq_of_wide wide rfl,
    beq_of_wide wide rfl]
  rfl

theorem asciiTest_isAttributeNamePart : AsciiTest isAttributeNamePart := by
  refine asciiTest_of_wide true fun char wide => ?_
  rw [isAttributeNamePart, isTagBlank_of_wide wide, beq_of_wide wide rfl,
    beq_of_wide wide rfl, beq_of_wide wide rfl]
  rfl

theorem asciiTest_isUnquotedPart : AsciiTest isUnquotedPart := by
  refine asciiTest_of_wide true fun char wide => ?_
  rw [isUnquotedPart, isTagBlank_of_wide wide, beq_of_wide wide rfl]
  rfl

theorem beginsMarkup_eq (chars : List Char) : beginsMarkup chars =
    (chars.headD '\x00' == '<' &&
      ((chars.drop 1).headD '\x00' == '!' ||
        ((chars.drop 1).headD '\x00').isAlpha ||
        ((chars.drop 1).headD '\x00' == '/' &&
          ((chars.drop 2).headD '\x00').isAlpha))) := by
  rcases chars with _ | ⟨first, _ | ⟨second, rest⟩⟩
  · rfl
  · by_cases opens : first = '<'
    · subst opens
      rfl
    · simp [beginsMarkup]
  · by_cases opens : first = '<'
    · subst opens
      by_cases bang : second = '!'
      · subst bang
        rfl
      · by_cases slash : second = '/'
        · subst slash
          cases rest <;> rfl
        · simp [beginsMarkup, slash, beq_false_of_ne bang,
            beq_false_of_ne slash]
    · simp [beginsMarkup, opens, beq_false_of_ne opens]

theorem asciiSearch_beginsMarkup : AsciiSearch beginsMarkup := by
  have letter := headD_octets asciiTest_isAlpha
  refine ⟨?_, ?_⟩
  · intro char rest wide
    rw [beginsMarkup_eq, List.headD_cons, beq_of_wide wide rfl]
    rfl
  · intro chars
    rw [beginsMarkup_eq, beginsMarkup_eq, headD_octets (asciiTest_beq rfl)]
    by_cases opens : chars.headD '\x00' == '<'
    · obtain ⟨rest, rfl⟩ := exists_cons_of_headD (by decide) opens
      rw [octets_cons_narrow rfl]
      simp only [List.drop_succ_cons, List.drop_zero]
      rw [headD_octets (asciiTest_beq rfl), headD_octets (asciiTest_beq rfl),
        letter]
      by_cases slash : rest.headD '\x00' == '/'
      · obtain ⟨more, rfl⟩ := exists_cons_of_headD (by decide) slash
        rw [octets_cons_narrow rfl]
        simp only [List.drop_succ_cons, List.drop_zero]
        rw [letter]
      · rw [eq_false_of_ne_true slash]
        rfl
    · rw [eq_false_of_ne_true opens]
      rfl

end Tests

section Agreement

variable {chars : List Char} {cursor : Cursor}

def placed {α : Type} (result : Except Token.Failure (α × Cursor)) :
    Except Token.Failure (α × Nat) :=
  result.map fun (value, next) => (value, next.offset)

theorem readName_eq (stands : cursor.Stands chars) :
    readName chars cursor.offset =
      some (cursor.rest.takeWhile Token.isNamePart,
        (cursor.skipWhile Token.isNamePart).offset) := by
  simp only [readName, skipWhile_eq stands asciiTest_isNamePart,
    stands.slice? (cursor.reads_skipWhile _)]
  rfl

theorem readDoctype_eq (stands : cursor.Stands chars)
    (begins : beginsWith ['<', '!'] cursor.rest) :
    readDoctype chars cursor.offset =
      .settled (placed (Token.readDoctype cursor)) := by
  have opens : cursor.Reads ['<', '!'] (cursor.advance 2) :=
    Cursor.reads_of_beginsWith begins
  have inside := stands.reads opens
  have place : cursor.offset + 2 = (cursor.advance 2).offset := opens.2.symm
  have text :=
    inside.slice? ((cursor.advance 2).reads_skipWhile fun char => char != '>')
  rcases find?_mark_cases inside (show isNarrow '>' from rfl) with
    ⟨missing, done⟩ | ⟨char, rest, present, shape, after⟩
  · simp only [readDoctype, place, missing, Token.readDoctype, done]
    rfl
  · simp only [readDoctype, place, present, Token.readDoctype, shape, text,
      ← after]
    rfl

theorem readComment_eq (stands : cursor.Stands chars)
    (begins : beginsWith ['<', '!', '-', '-'] cursor.rest) :
    readComment chars cursor.offset =
      .settled (placed (Token.readComment cursor)) := by
  have opens : cursor.Reads ['<', '!', '-', '-'] (cursor.advance 4) :=
    Cursor.reads_of_beginsWith begins
  have inside := stands.reads opens
  have place : cursor.offset + 4 = (cursor.advance 4).offset := opens.2.symm
  have text :=
    inside.slice? ((cursor.advance 4).reads_skipUntil
      (beginsWith ['-', '-', '>']))
  have search : AsciiSearch (beginsWith ['-', '-', '>']) :=
    asciiSearch_beginsWith (List.all_eq_true.mp rfl)
  rcases find?_cases inside search with ⟨missing, done⟩ |
    ⟨char, rest, present, shape, closes⟩
  · simp only [readComment, place, missing, Token.readComment, done]
    rfl
  · have after :
        ((cursor.advance 4).skipUntil (beginsWith ['-', '-', '>'])).offset + 3 =
        (((cursor.advance 4).skipUntil (beginsWith ['-', '-', '>'])).advance
          3).offset :=
      closes.2.symm
    simp only [readComment, place, present, Token.readComment, shape, text,
      after]
    rfl

theorem readEndTag_eq (stands : cursor.Stands chars)
    (begins : beginsWith ['<', '/'] cursor.rest) :
    readEndTag chars cursor.offset =
      .settled (placed (Token.readEndTag cursor)) := by
  have opens : cursor.Reads ['<', '/'] (cursor.advance 2) :=
    Cursor.reads_of_beginsWith begins
  have inside := stands.reads opens
  have place : cursor.offset + 2 = (cursor.advance 2).offset := opens.2.symm
  have behind :=
    inside.reads ((cursor.advance 2).reads_skipWhile Token.isNamePart)
  have name := readName_eq inside
  rcases find?_mark_cases behind (show isNarrow '>' from rfl) with
    ⟨missing, done⟩ | ⟨char, rest, present, shape, after⟩
  · simp only [readEndTag, place, name, Reading.lift_eq,
      Reading.settled_ok_bind, missing, Token.readEndTag, done]
    rfl
  · simp only [readEndTag, place, name, Reading.lift_eq,
      Reading.settled_ok_bind, present, Token.readEndTag, shape, ← after]
    rfl

theorem textTokens_eq {next : Cursor} {taken : List Char}
    (stands : cursor.Stands chars) (reads : cursor.Reads taken next) :
    textTokens chars cursor.offset next.offset =
      some (if taken.isEmpty then []
        else
          [⟨.text (String.ofList taken), ⟨cursor.offset, next.offset⟩⟩]) := by
  unfold textTokens
  cases taken with
  | nil =>
      have same : cursor.offset = next.offset := reads.2.symm
      rw [if_pos same]
      rfl
  | cons char rest =>
      have further := reads.offset_lt (List.cons_ne_nil char rest)
      rw [if_neg (Nat.ne_of_lt further), stands.slice? reads]
      rfl

theorem skipUntil_second (stands : cursor.Stands chars)
    {found : List Char → Bool} (search : AsciiSearch found) {first : Char}
    {rest : List Char} (shape : cursor.rest = first :: rest) :
    skipUntil chars found (cursor.offset + 1) =
      ((cursor.advance 1).skipUntil found).offset := by
  have bytes : (octets chars).drop (cursor.offset + 1) =
      (octets cursor.rest).drop 1 := by
    rw [← stands.octets_drop, List.drop_drop]
  have second : (cursor.advance 1).rest = rest := by
    simp [Cursor.advance, shape]
  have place : (cursor.advance 1).offset = cursor.offset + first.utf8Size := by
    simp [Cursor.advance, shape]
  rw [skipUntil, bytes, Cursor.skipUntil, second, place, shape, octets_cons]
  obtain ⟨octet, more, encoded⟩ :=
    List.exists_cons_of_ne_nil (octetsOf_ne_nil first)
  have size : more.length + 1 = first.utf8Size := by
    rw [← length_octetsOf, encoded]
    rfl
  rw [encoded, List.cons_append, List.drop_succ_cons, List.drop_zero]
  by_cases narrow : isNarrow first
  · obtain rfl : more = [] := by
      rw [utf8Size_of_narrow narrow] at size
      exact List.eq_nil_of_length_eq_zero (by omega)
    rw [List.nil_append, takeUntil_octets search, length_octets, ← size]
    rfl
  · have wide : ∀ char ∈ more, ¬ isNarrow char := fun char member =>
      wide_of_mem_octetsOf narrow
        (by rw [encoded]; exact List.mem_cons_of_mem _ member)
    rw [takeUntil_wide search.wide _ wide, takeUntil_octets search,
      List.length_append, length_octets]
    simp only
    omega

theorem readText_eq (stands : cursor.Stands chars) (more : cursor.rest ≠ []) :
    readText chars cursor.offset =
      some ((Token.readText cursor).1, (Token.readText cursor).2.offset) := by
  obtain ⟨first, rest, shape⟩ := List.exists_cons_of_ne_nil more
  have reads := (cursor.reads_advance 1).trans
    ((cursor.advance 1).reads_skipUntil Token.beginsMarkup)
  simp only [readText, skipUntil_second stands asciiSearch_beginsMarkup shape,
    textTokens_eq stands reads]
  simp [shape, Token.readText]

theorem takeUntil_of_short {pattern : List Char} {bytes : List Char}
    (short : bytes.length < pattern.length) :
    takeUntil (beginsWithIgnoringCase pattern) bytes = bytes := by
  induction bytes with
  | nil => rfl
  | cons byte rest induction =>
      have differs : beginsWithIgnoringCase pattern (byte :: rest) = false := by
        rw [beginsWithIgnoringCase, beq_eq_false_iff_ne]
        intro same
        have lengths := congrArg List.length same
        simp only [List.length_map, List.length_take] at lengths
        omega
      rw [takeUntil, differs,
        induction (Nat.lt_trans (Nat.lt_succ_self _) short)]
      rfl

theorem rawTextStop_bytes (pattern : List Char) (some : pattern ≠ [])
    (bytes : List Char) {place : Nat} (here : (octets chars).drop place = bytes)
    (inside : place ≤ byteLength chars) :
    rawTextStop chars (pattern.map Char.toLower) place =
      .some (place + (takeUntil (beginsWithIgnoringCase pattern)
        bytes).length) := by
  -- The search goes on from inside a character too, so the induction is on the
  -- bytes that are left.
  induction bytes generalizing place with
  | nil =>
      have left : place = byteLength chars := by
        have past := List.drop_eq_nil_iff.mp here
        rw [length_octets] at past
        exact Nat.le_antisymm inside past
      have taken : 0 < pattern.length := List.length_pos_iff.mpr some
      rw [rawTextStop, List.length_map, dif_neg (by omega), left]
      rfl
  | cons byte rest induction =>
      have left : place + (rest.length + 1) = byteLength chars := by
        rw [← length_octets, ← List.length_cons (a := byte), ← here,
          List.length_drop, length_octets]
        omega
      rw [rawTextStop, List.length_map]
      by_cases fits : place + pattern.length ≤ byteLength chars
      · have window : bytesBetween chars place (place + pattern.length) =
            .some ((byte :: rest).take pattern.length) := by
          rw [bytesBetween, if_pos ⟨Nat.le_add_right _ _, fits⟩, here,
            Nat.add_sub_cancel_left]
        have next : (octets chars).drop (place + 1) = rest := by
          rw [← List.drop_drop, here]
          rfl
        rw [dif_pos fits, window]
        simp only [Option.bind_eq_bind, Option.bind_some, takeUntil]
        by_cases found : beginsWithIgnoringCase pattern (byte :: rest)
        · rw [if_pos found]
          unfold beginsWithIgnoringCase at found
          rw [if_pos found]
          rfl
        · rw [if_neg found, induction next (by omega)]
          unfold beginsWithIgnoringCase at found
          rw [if_neg found, List.length_cons]
          congr 1
          omega
      · rw [dif_neg fits, takeUntil_of_short (by rw [List.length_cons]; omega),
          List.length_cons, left]

theorem readRawText_eq (stands : cursor.Stands chars) {name : List Char}
    (narrow : ∀ char ∈ name, isNarrow char) :
    readRawText chars name cursor.offset =
      some ((Token.readRawText name cursor).1,
        (Token.readRawText name cursor).2.offset) := by
  have search : AsciiSearch (beginsWithIgnoringCase ('<' :: '/' :: name)) := by
    apply asciiSearch_beginsWithIgnoringCase
    simpa using ⟨rfl, rfl, narrow⟩
  have reads :=
    cursor.reads_skipUntil (beginsWithIgnoringCase ('<' :: '/' :: name))
  have stop : rawTextStop chars ('<' :: '/' :: name.map Char.toLower)
      cursor.offset =
      some (cursor.skipUntil
        (beginsWithIgnoringCase ('<' :: '/' :: name))).offset := by
    have inside : cursor.offset ≤ byteLength chars := by
      rw [byteLength_eq stands]
      exact Nat.le_add_right _ _
    have found := rawTextStop_bytes ('<' :: '/' :: name) (List.cons_ne_nil _ _)
      (octets cursor.rest) stands.octets_drop inside
    rw [takeUntil_octets search, length_octets] at found
    exact found
  simp only [readRawText, stop, Option.bind_eq_bind, Option.bind_some,
    textTokens_eq stands reads, Token.readRawText]
  cases takeUntil (beginsWithIgnoringCase ('<' :: '/' :: name)) cursor.rest <;>
    rfl

theorem readQuoted_eq (stands : cursor.Stands chars) {mark : Char}
    (narrow : isNarrow mark) (begins : beginsWith [mark] cursor.rest)
    (failure : Token.Failure) (quote : Quote) :
    readQuoted chars failure quote mark cursor.offset =
      .settled (placed (Token.readQuoted failure quote mark cursor)) := by
  have opens : cursor.Reads [mark] (cursor.advance 1) :=
    Cursor.reads_of_beginsWith begins
  have inside := stands.reads opens
  have place : cursor.offset + 1 = (cursor.advance 1).offset := by
    rw [opens.2, byteLength_cons, utf8Size_of_narrow narrow]
    rfl
  have text :=
    inside.slice? ((cursor.advance 1).reads_skipWhile fun char => char != mark)
  rcases find?_mark_cases inside narrow with
    ⟨missing, done⟩ | ⟨char, rest, present, shape, after⟩
  · simp only [readQuoted, place, missing, Token.readQuoted, done]
    rfl
  · simp only [readQuoted, place, present, Token.readQuoted, shape, text,
      ← after]
    rfl

theorem readUnquoted_eq (stands : cursor.Stands chars)
    (failure : Token.Failure) :
    readUnquoted chars failure cursor.offset =
      .settled (placed (Token.readUnquoted failure cursor)) := by
  have reads := cursor.reads_skipWhile Token.isUnquotedPart
  simp only [readUnquoted, skipWhile_eq stands asciiTest_isUnquotedPart,
    atEnd_eq (stands.reads reads), stands.slice? reads]
  cases shape : (cursor.skipWhile Token.isUnquotedPart).rest with
  | nil =>
      simp only [Token.readUnquoted, shape]
      rfl
  | cons char rest =>
      simp only [Token.readUnquoted, shape]
      rfl

theorem readValue_eq (stands : cursor.Stands chars) (name tag : String)
    (start tagStart : Nat) :
    readValue chars name tag start tagStart cursor.offset =
      .settled (placed (Token.readValue name tag start tagStart cursor)) := by
  have double := peek_test stands (asciiTest_beq (show isNarrow '"' from rfl))
  have single := peek_test stands (asciiTest_beq (show isNarrow '\'' from rfl))
  simp only [readValue, double, single]
  by_cases isDouble : cursor.rest.headD '\x00' == '"'
  · obtain ⟨rest, shape⟩ := exists_cons_of_headD (by decide) isDouble
    have begins : beginsWith ['"'] cursor.rest := by
      rw [shape]
      rfl
    rw [if_pos isDouble, readQuoted_eq stands rfl begins, Token.readValue]
    simp only [shape]
  · rw [if_neg isDouble]
    by_cases isSingle : cursor.rest.headD '\x00' == '\''
    · obtain ⟨rest, shape⟩ := exists_cons_of_headD (by decide) isSingle
      have begins : beginsWith ['\''] cursor.rest := by
        rw [shape]
        rfl
      rw [if_pos isSingle, readQuoted_eq stands rfl begins, Token.readValue]
      simp only [shape]
    · rw [if_neg isSingle, readUnquoted_eq stands, Token.readValue]
      split
      · rename_i shape
        rw [shape] at isDouble
        exact absurd rfl isDouble
      · rename_i shape
        rw [shape] at isSingle
        exact absurd rfl isSingle
      · rfl

def BeginsAttribute (rest : List Char) : Prop :=
  ∀ char ∈ rest.head?, isTagBlank char = false ∧ char ≠ '>' ∧ char ≠ '/'

theorem attributeName_eq {rest : List Char} (begins : BeginsAttribute rest) :
    Token.attributeName rest = rest.takeWhile Token.isAttributeNamePart := by
  unfold Token.attributeName
  split
  · rfl
  · rfl
  · rename_i first more notEquals
    obtain ⟨blank, notClose, notSlash⟩ := begins first rfl
    have part : Token.isAttributeNamePart first := by
      have other : first ≠ '=' := notEquals
      simp [Token.isAttributeNamePart, blank, notClose, notSlash, other]
    rw [List.takeWhile_cons_of_pos part]

theorem readAttribute_eq (stands : cursor.Stands chars)
    (begins : BeginsAttribute cursor.rest) (tag : String) (tagStart : Nat) :
    readAttribute chars tag tagStart cursor.offset =
      .settled (placed (Token.readAttribute tag tagStart cursor)) := by
  have nameReads := cursor.reads_skipWhile Token.isAttributeNamePart
  have behindName := stands.reads nameReads
  simp only [readAttribute, skipWhile_eq stands asciiTest_isAttributeNamePart,
    stands.slice? nameReads, skipWhile_eq behindName asciiTest_isTagBlank,
    Reading.lift_eq,
    Reading.settled_ok_bind, Token.readAttribute, attributeName_eq begins,
    nameReads.eq_advance]
  generalize named :
    (cursor.skipWhile Token.isAttributeNamePart).skipWhile isTagBlank =
      afterName
  have behindBlanks : afterName.Stands chars := by
    rw [← named]
    exact behindName.reads (Cursor.reads_skipWhile _ _)
  have equals :=
    peek_test behindBlanks (asciiTest_beq (show isNarrow '=' from rfl))
  rw [atEnd_eq behindBlanks, bne, equals]
  by_cases valued : afterName.rest.headD '\x00' == '='
  · obtain ⟨rest, shape⟩ := exists_cons_of_headD (by decide) valued
    have opens : afterName.Reads ['='] (afterName.advance 1) := by
      apply Cursor.reads_of_beginsWith
      rw [shape]
      rfl
    have inside := behindBlanks.reads opens
    have place : afterName.offset + 1 = (afterName.advance 1).offset :=
      opens.2.symm
    have value :=
      readValue_eq (inside.reads
        ((afterName.advance 1).reads_skipWhile isTagBlank))
      (String.ofList (cursor.rest.takeWhile Token.isAttributeNamePart)) tag
        cursor.offset tagStart
    simp only [shape, List.headD_cons, beq_self_eq_true, List.isEmpty_cons,
      Bool.not_true, Bool.or_self, Bool.false_eq_true, if_false, place,
      skipWhile_eq inside asciiTest_isTagBlank,
      value]
    cases Token.readValue
      (String.ofList (cursor.rest.takeWhile Token.isAttributeNamePart)) tag
      cursor.offset tagStart ((afterName.advance 1).skipWhile isTagBlank) <;>
      rfl
  · rw [eq_false_of_ne_true valued, Bool.not_false, Bool.true_or, if_pos rfl]
    split
    · rename_i rest shape
      rw [shape] at valued
      exact absurd rfl valued
    · rfl

def closed (result : Except Token.Failure (List Attribute × Bool × Cursor)) :
    Except Token.Failure (List Attribute × Bool × Nat) :=
  result.map fun (attributes, selfClosing, next) =>
    (attributes, selfClosing, next.offset)

theorem readAttributes_step (stands : cursor.Stands chars) {place : Nat}
    (skips : skipWhile chars isTagBlank place = cursor.offset) (tag : String)
    (tagStart : Nat) :
    readAttributes chars tag tagStart place =
      if cursor.rest.isEmpty then throw ⟨.unterminatedTag tag, tagStart⟩
      else if cursor.rest.headD '\x00' == '>' then
        return ([], false, cursor.offset + 1)
      else if cursor.rest.headD '\x00' == '/' &&
          (cursor.rest.drop 1).headD '\x00' == '>' then
        return ([], true, cursor.offset + 2)
      else if cursor.rest.headD '\x00' == '/' then do
        let ⟨next, _⟩ ← onward? chars cursor.offset (cursor.offset + 1)
        readAttributes chars tag tagStart next
      else do
        let (attr, behind) ← readAttribute chars tag tagStart cursor.offset
        let ⟨next, _⟩ ← onward? chars cursor.offset behind
        let (more, selfClosing, stop) ← readAttributes chars tag tagStart next
        return (attr :: more, selfClosing, stop) := by
  have close := peek_test stands (asciiTest_beq (show isNarrow '>' from rfl))
  have slash := peek_test stands (asciiTest_beq (show isNarrow '/' from rfl))
  rw [readAttributes, skips, atEnd_eq stands, close, slash]
  by_cases slashed : cursor.rest.headD '\x00' == '/'
  · have begins : beginsWith ['/'] cursor.rest := by
      obtain ⟨rest, shape⟩ := exists_cons_of_headD (by decide) slashed
      rw [shape]
      rfl
    have second : (peek chars (cursor.offset + 1) == '>') =
        ((cursor.rest.drop 1).headD '\x00' == '>') :=
      peek_behind stands (asciiTest_beq (show isNarrow '>' from rfl)) rfl begins
    rw [second]
  · rw [eq_false_of_ne_true slashed, Bool.false_and, Bool.false_and]

theorem readAttributes_attribute (stands : cursor.Stands chars) {place : Nat}
    (skips : skipWhile chars isTagBlank place = cursor.offset)
    (more : cursor.rest ≠ []) (begins : BeginsAttribute cursor.rest)
    (tag : String) (tagStart : Nat) :
    readAttributes chars tag tagStart place = do
      let (attr, behind) ← .settled
        (placed (Token.readAttribute tag tagStart cursor))
      let ⟨next, _⟩ ← onward? chars cursor.offset behind
      let (more, selfClosing, stop) ← readAttributes chars tag tagStart next
      return (attr :: more, selfClosing, stop) := by
  obtain ⟨first, rest, shape⟩ := List.exists_cons_of_ne_nil more
  obtain ⟨_, notClose, notSlash⟩ := begins first (by rw [shape]; rfl)
  rw [readAttributes_step stands skips, readAttribute_eq stands begins, shape,
    List.isEmpty_cons, List.headD_cons, beq_false_of_ne notClose,
    beq_false_of_ne notSlash]
  rfl

theorem readAttributes_behind {tag : String} {tagStart place : Nat}
    (stands : cursor.Stands chars)
    (skips : skipWhile chars isTagBlank place = cursor.offset)
    (skipped : ∀ char ∈ cursor.rest.head?, isTagBlank char = false) :
    readAttributes chars tag tagStart place =
      .settled (closed (Token.readAttributes tag tagStart cursor)) := by
  fun_induction Token.readAttributes tag tagStart cursor generalizing place with
  | case1 cursor rest =>
      rw [readAttributes_step stands skips, rest]
      rfl
  | case2 cursor tail rest =>
      have closes : cursor.Reads ['>'] (cursor.advance 1) :=
          Cursor.reads_of_beginsWith (by
        rw [rest]
        rfl)
      have place : cursor.offset + 1 = (cursor.advance 1).offset :=
        closes.2.symm
      rw [readAttributes_step stands skips, rest, place]
      rfl
  | case3 cursor tail rest =>
      have closes : cursor.Reads ['/', '>'] (cursor.advance 2) :=
          Cursor.reads_of_beginsWith (by
        rw [rest]
        rfl)
      have place : cursor.offset + 2 = (cursor.advance 2).offset :=
        closes.2.symm
      rw [readAttributes_step stands skips, rest, place]
      rfl
  | case4 cursor tail notClose rest induction =>
      have slash : cursor.Reads ['/'] (cursor.advance 1) :=
          Cursor.reads_of_beginsWith (by
        rw [rest]
        rfl)
      have behind := stands.reads slash
      have place : cursor.offset + 1 = (cursor.advance 1).offset := slash.2.symm
      have unclosed : (tail.headD '\x00' == '>') = false := by
        rw [Bool.eq_false_iff]
        intro close
        obtain ⟨more, shape⟩ := exists_cons_of_headD (by decide) close
        exact notClose more shape
      rw [readAttributes_step stands skips, rest]
      simp only [List.isEmpty_cons, List.headD_cons, List.drop_succ_cons,
        List.drop_zero, unclosed]
      obtain ⟨_, onward⟩ := onward?_eq stands (by simp [rest])
        (slash.offset_lt (by simp))
      rw [place, onward, ← induction (behind.reads (Cursor.reads_skipWhile _ _))
        (skipWhile_eq behind asciiTest_isTagBlank) fun char =>
          Cursor.head_skipWhile]
      rfl
  | case5 cursor first tail notClose _ notSlash rest failure read =>
      have begins : BeginsAttribute cursor.rest := by
        intro char head
        obtain rfl : first = char := by simpa [rest] using head
        exact ⟨skipped first head, notClose, notSlash⟩
      rw [readAttributes_attribute stands skips (by simp [rest]) begins, read]
      rfl
  | case6 cursor first tail notClose _ notSlash rest attr next read induction =>
      have begins : BeginsAttribute cursor.rest := by
        intro char head
        obtain rfl : first = char := by simpa [rest] using head
        exact ⟨skipped first head, notClose, notSlash⟩
      have more : cursor.rest ≠ [] := by simp [rest]
      obtain ⟨⟨_, reads⟩, _⟩ := Token.readAttribute_spells stands read
      have behind := stands.reads reads
      have ahead :=
        reads.offset_lt (reads.ne_nil (Token.length_readAttribute_lt more read))
      obtain ⟨_, onward⟩ := onward?_eq stands more ahead
      have later := induction (behind.reads (Cursor.reads_skipWhile _ _))
        (skipWhile_eq behind asciiTest_isTagBlank) fun char =>
          Cursor.head_skipWhile
      rw [readAttributes_attribute stands skips more begins, read]
      simp only [placed, Except.map, Reading.settled_ok_bind, onward,
        Reading.lift_eq]
      rw [later]
      cases Token.readAttributes tag tagStart (next.skipWhile isTagBlank) <;>
        rfl

theorem readAttributes_eq (stands : cursor.Stands chars) (tag : String)
    (tagStart : Nat) :
    readAttributes chars tag tagStart cursor.offset =
      .settled (closed (Token.readAttributes tag tagStart
        (cursor.skipWhile isTagBlank))) :=
  readAttributes_behind (stands.reads (cursor.reads_skipWhile isTagBlank))
    (skipWhile_eq stands asciiTest_isTagBlank) fun _ => Cursor.head_skipWhile

theorem narrow_of_name {rest : List Char} :
    ∀ char ∈ rest.takeWhile Token.isNamePart, isNarrow char := by
  intro char member
  have part : Token.isNamePart char :=
    List.all_eq_true.mp List.all_takeWhile char member
  by_cases narrow : isNarrow char
  · exact narrow
  · rw [asciiTest_isNamePart char 'é' narrow (by decide)] at part
    exact absurd part (by decide)

theorem readStartTag_eq (stands : cursor.Stands chars)
    (begins : beginsWith ['<'] cursor.rest) :
    readStartTag chars cursor.offset =
      .settled (placed (Token.readStartTag cursor)) := by
  have opens : cursor.Reads ['<'] (cursor.advance 1) :=
    Cursor.reads_of_beginsWith begins
  have inside := stands.reads opens
  have place : cursor.offset + 1 = (cursor.advance 1).offset := opens.2.symm
  have name := readName_eq inside
  have behind :=
    inside.reads ((cursor.advance 1).reads_skipWhile Token.isNamePart)
  simp only [readStartTag, place, name, Reading.lift_eq,
    Reading.settled_ok_bind, readAttributes_eq behind, Token.readStartTag]
  cases read : Token.readAttributes
      (String.ofList ((cursor.advance 1).rest.takeWhile Token.isNamePart))
        cursor.offset
      (((cursor.advance 1).skipWhile Token.isNamePart).skipWhile
        isTagBlank) with
  | error failure => rfl
  | ok result =>
      obtain ⟨attributes, selfClosing, stop⟩ := result
      obtain ⟨⟨_, reads⟩, _⟩ :=
        Token.readAttributes_spells (behind.reads (Cursor.reads_skipWhile _ _))
          read
      have after := (behind.reads (Cursor.reads_skipWhile _ isTagBlank)).reads
        reads
      simp only [closed, Except.map, Reading.settled_ok_bind,
        readRawText_eq after narrow_of_name, Reading.lift_eq]
      by_cases raw :
          isRawTextElement (String.ofList ((cursor.advance 1).rest.takeWhile
          Token.isNamePart)) && !selfClosing
      · rw [if_pos raw]
        change _ = Reading.settled (placed (if _ then _ else _))
        rw [if_pos raw]
        rfl
      · rw [if_neg raw]
        change _ = Reading.settled (placed (if _ then _ else _))
        rw [if_neg raw]
        rfl

theorem readNext_cascade (cursor : Cursor) : Token.readNext cursor =
    if cursor.rest.headD '\x00' != '<' then .ok (Token.readText cursor)
    else if beginsWith ['<', '!', '-', '-'] cursor.rest then
      Token.readComment cursor
    else if beginsWith ['<', '!'] cursor.rest then Token.readDoctype cursor
    else if beginsWith ['<', '/'] cursor.rest &&
        ((cursor.rest.drop 2).headD '\x00').isAlpha then
      Token.readEndTag cursor
    else if ((cursor.rest.drop 1).headD '\x00').isAlpha then
      Token.readStartTag cursor
    else .ok (Token.readText cursor) := by
  unfold Token.readNext
  rcases shape : cursor.rest with _ | ⟨first, _ | ⟨second, rest⟩⟩
  · rfl
  · by_cases opens : first = '<'
    · subst opens
      rfl
    · simp [opens, Token.beginsMarkup]
  · by_cases opens : first = '<'
    · subst opens
      by_cases bang : second = '!'
      · subst bang
        by_cases dashes : ['-', '-'] <+: rest
        · obtain ⟨tail, rfl⟩ := dashes
          rfl
        · have plain : beginsWith ['<', '!', '-', '-'] ('<' :: '!' :: rest) =
              false := by
            rw [← Bool.not_eq_true, beginsWith, List.isPrefixOf_iff_prefix]
            simpa using dashes
          have markup : Token.beginsMarkup ('<' :: '!' :: rest) = true := rfl
          rw [plain, if_pos markup]
          split
          · rename_i tail same
            obtain rfl : rest = '-' :: '-' :: tail := by simpa using same
            exact absurd (List.prefix_append ['-', '-'] tail) dashes
          · rfl
          · rename_i same
            simp at same
          · rename_i other _
            exact absurd rfl (other rest)
      · by_cases slash : second = '/'
        · subst slash
          cases rest <;> simp [Token.beginsMarkup, beginsWith, List.isPrefixOf]
        · simp [Token.beginsMarkup, beginsWith, bang, slash, Ne.symm bang,
            Ne.symm slash]
    · simp [opens, Token.beginsMarkup]

theorem readNext_eq (stands : cursor.Stands chars) (more : cursor.rest ≠ []) :
    readNext chars cursor.offset =
      .settled (placed (Token.readNext cursor)) := by
  have text : (liftM (readText chars cursor.offset) : Reading Token.Failure _) =
      .settled (placed (.ok (Token.readText cursor))) := by
    rw [readText_eq stands more]
    rfl
  rw [readNext, peek_test stands (asciiTest_bne (show isNarrow '<' from rfl)),
    readNext_cascade, bytesFrom_eq stands]
  by_cases opens : cursor.rest.headD '\x00' != '<'
  · rw [if_pos opens, if_pos opens, text]
  · have begins : beginsWith ['<'] cursor.rest := by
      have head : cursor.rest.headD '\x00' == '<' := by simpa [bne] using opens
      obtain ⟨rest, shape⟩ := exists_cons_of_headD (by decide) head
      rw [shape]
      rfl
    have second : (peek chars (cursor.offset + 1)).isAlpha =
        ((cursor.rest.drop 1).headD '\x00').isAlpha := by
      have letter := peek_behind stands asciiTest_isAlpha rfl begins
      exact letter
    rw [if_neg opens, if_neg opens, Reading.lift_eq, Reading.settled_ok_bind,
      beginsWith_octets (List.all_eq_true.mp rfl),
      beginsWith_octets (List.all_eq_true.mp rfl),
      beginsWith_octets (List.all_eq_true.mp rfl), second]
    by_cases comment : beginsWith ['<', '!', '-', '-'] cursor.rest
    · rw [if_pos comment, if_pos comment, readComment_eq stands comment]
    · rw [if_neg comment, if_neg comment]
      by_cases doctype : beginsWith ['<', '!'] cursor.rest
      · rw [if_pos doctype, if_pos doctype, readDoctype_eq stands doctype]
      · rw [if_neg doctype, if_neg doctype]
        have third : (beginsWith ['<', '/'] cursor.rest &&
              (peek chars (cursor.offset + 2)).isAlpha) =
            (beginsWith ['<', '/'] cursor.rest &&
              ((cursor.rest.drop 2).headD '\x00').isAlpha) := by
          by_cases closes : beginsWith ['<', '/'] cursor.rest
          · have behind : (peek chars (cursor.offset + 2)).isAlpha =
                ((cursor.rest.drop 2).headD '\x00').isAlpha := by
              have letter := peek_behind stands asciiTest_isAlpha rfl closes
              exact letter
            rw [behind]
          · rw [eq_false_of_ne_true closes, Bool.false_and, Bool.false_and]
        rw [third]
        by_cases closes : beginsWith ['<', '/'] cursor.rest &&
            ((cursor.rest.drop 2).headD '\x00').isAlpha
        · rw [if_pos closes, if_pos closes,
            readEndTag_eq stands (Bool.and_eq_true_iff.mp closes).1]
        · rw [if_neg closes, if_neg closes]
          by_cases starts : ((cursor.rest.drop 1).headD '\x00').isAlpha
          · rw [if_pos starts, if_pos starts, readStartTag_eq stands begins]
          · rw [if_neg starts, if_neg starts, text]

/-- The bytes of a text give the tokens of its characters. -/
theorem scanFrom_eq (stands : cursor.Stands chars) :
    scanFrom chars cursor.offset = .settled (Token.scanFrom cursor) := by
  fun_induction Token.scanFrom cursor with
  | case1 cursor rest =>
      rw [scanFrom, atEnd_eq stands, rest, stands.offset_eq_of_nil rest]
      rfl
  | case2 cursor first tail rest failure read =>
      have more : cursor.rest ≠ [] := by simp [rest]
      rw [scanFrom, atEnd_eq stands, readNext_eq stands more, read, rest]
      rfl
  | case3 cursor first tail rest tokens next read induction =>
      have more : cursor.rest ≠ [] := by simp [rest]
      obtain ⟨_, reads⟩ := (Token.readNext_tiles stands more read).exists_reads
      have ahead :=
        reads.offset_lt (reads.ne_nil (Token.length_readNext_lt more read))
      obtain ⟨_, onward⟩ := onward?_eq stands more ahead
      rw [scanFrom, atEnd_eq stands, readNext_eq stands more, read, rest]
      simp only [List.isEmpty_cons, placed, Except.map, Reading.settled_ok_bind,
        onward, Reading.lift_eq, induction (stands.reads reads)]
      cases Token.scanFrom next <;> rfl

end Agreement

end Stencil.Checked
