import Stencil.Proofs.Covering

namespace Stencil

open Text

/-! A part of a text, and the text with more in front of the part and behind it.
Attributes that end inside the part are read in the part alone as they are read
in the whole, their spans counted from the beginning of the part. -/

def Span.shift (span : Span) (origin : Nat) : Span :=
  ⟨origin + span.start, origin + span.stop⟩

def Attribute.Value.shift (value : Attribute.Value) (origin : Nat) :
    Attribute.Value :=
  { value with span := value.span.shift origin }

def Attribute.shift (attr : Attribute) (origin : Nat) : Attribute :=
  { attr with value := attr.value.map fun value => value.shift origin,
              span := attr.span.shift origin }

def Tag.shift (tag : Tag) (origin : Nat) : Tag :=
  { tag with attributes := tag.attributes.map fun attr => attr.shift origin }

def Token.Kind.shift (kind : Token.Kind) (origin : Nat) : Token.Kind :=
  match kind with
  | .startTag tag => .startTag (tag.shift origin)
  | other => other

def Token.shift (token : Token) (origin : Nat) : Token :=
  ⟨token.kind.shift origin, token.span.shift origin⟩

namespace Text

variable {chars outer : List Char}

theorem split_append {taken rest : List Char}
    (same : chars ++ outer = taken ++ rest)
    (within : taken.length ≤ chars.length) :
    ∃ more, chars = taken ++ more ∧ rest = more ++ outer := by
  obtain ⟨more, shape⟩ := List.prefix_of_prefix_length_le
    (show taken <+: chars ++ outer from same ▸ List.prefix_append ..)
      (List.prefix_append ..) within
  subst shape
  rw [List.append_assoc] at same
  exact ⟨more, rfl, (List.append_cancel_left same).symm⟩

theorem takeWhile_append_of_within {test : Char → Bool}
    (within : outer.length ≤ ((chars ++ outer).dropWhile test).length) :
    (chars ++ outer).takeWhile test = chars.takeWhile test ∧
      (chars ++ outer).dropWhile test = chars.dropWhile test ++ outer := by
  induction chars with
  | nil =>
      have whole : outer.dropWhile test = outer :=
        (List.dropWhile_sublist test).eq_of_length_le within
      refine ⟨?_, whole⟩
      have split := List.takeWhile_append_dropWhile (p := test) (l := outer)
      rw [whole] at split
      exact List.append_left_eq_self.mp split
  | cons char rest induction =>
      by_cases passes : test char
      · simp only [List.cons_append, List.takeWhile_cons_of_pos passes,
          List.dropWhile_cons_of_pos passes] at within ⊢
        obtain ⟨taken, dropped⟩ := induction within
        exact ⟨congrArg _ taken, dropped⟩
      · simp [passes]

/-- Whether something is found depends on so many characters at most. -/
structure Looks (found : List Char → Bool) (size : Nat) : Prop where
  grows : ∀ chars outer, found chars → found (chars ++ outer)
  shrinks : ∀ chars outer,
    size ≤ chars.length → found (chars ++ outer) → found chars

theorem looks_beginsWith (pattern : List Char) :
    Looks (beginsWith pattern) pattern.length := by
  constructor
  · intro chars outer begins
    apply List.isPrefixOf_iff_prefix.mpr
    exact (List.isPrefixOf_iff_prefix.mp begins).trans (List.prefix_append ..)
  · intro chars outer size begins
    apply List.isPrefixOf_iff_prefix.mpr
    exact List.prefix_of_prefix_length_le (List.isPrefixOf_iff_prefix.mp begins)
      (List.prefix_append ..) size

theorem looks_beginsWithIgnoringCase (pattern : List Char) :
    Looks (beginsWithIgnoringCase pattern) pattern.length := by
  constructor
  · intro chars outer begins
    obtain ⟨front, rest, rfl, same⟩ := beginsWithIgnoringCase_iff.mp begins
    exact beginsWithIgnoringCase_iff.mpr ⟨front, _, List.append_assoc .., same⟩
  · intro chars outer size begins
    rw [beginsWithIgnoringCase, List.take_append_of_le_length size] at begins
    exact begins

theorem takeUntil_append_of_within {found : List Char → Bool} {size : Nat}
    {rest : List Char} (looks : Looks found size)
    (dropped : dropUntil found (chars ++ outer) = rest ++ outer)
    (ends : rest = [] ∨ found rest) :
    takeUntil found (chars ++ outer) = takeUntil found chars ∧
    dropUntil found chars = rest := by
  induction chars with
  | nil =>
      have whole := takeUntil_append_dropUntil found outer
      rw [show dropUntil found outer = rest ++ outer from dropped,
        ← List.append_assoc] at whole
      obtain ⟨taken, none⟩ :=
        List.append_eq_nil_iff.mp (List.append_left_eq_self.mp whole)
      exact ⟨taken, none.symm⟩
  | cons char more induction =>
      rw [List.cons_append, dropUntil] at dropped
      rw [List.cons_append, takeUntil, takeUntil, dropUntil]
      split at dropped
      · rename_i here
        have same : char :: more = rest := List.append_cancel_right dropped
        subst same
        have here' := ends.resolve_left (List.cons_ne_nil _ _)
        exact ⟨by rw [if_pos here, if_pos here'], if_pos here'⟩
      · rename_i here
        have here' : ¬ found (char :: more) := fun found =>
          here (looks.grows _ _ found)
        obtain ⟨taken, found⟩ := induction dropped
        exact ⟨by rw [if_neg here, if_neg here', taken], by rw [if_neg here',
          found]⟩

end Text

namespace Cursor

/-- The cursor in a text that has more in front, and the outer text behind. -/
def widen (cursor : Cursor) (origin : Nat) (outer : List Char) : Cursor :=
  ⟨origin + cursor.offset, cursor.rest ++ outer⟩

variable {cursor : Cursor} {origin : Nat} {outer : List Char}

@[simp] theorem length_widen :
    (cursor.widen origin outer).rest.length =
      cursor.rest.length + outer.length :=
  List.length_append

theorem advance_widen {count : Nat} (within : count ≤ cursor.rest.length) :
    (cursor.widen origin outer).advance count =
      (cursor.advance count).widen origin outer := by
  simp only [widen, advance, List.take_append_of_le_length within,
    List.drop_append_of_le_length within, Nat.add_assoc]

theorem advance_one_widen (some : cursor.rest ≠ []) :
    (cursor.widen origin outer).advance 1 =
      (cursor.advance 1).widen origin outer :=
  advance_widen (List.length_pos_iff.mpr some)

theorem skipWhile_widen {test : Char → Bool}
    (within :
      outer.length ≤ ((cursor.widen origin outer).skipWhile test).rest.length) :
    (cursor.widen origin outer).rest.takeWhile test =
      cursor.rest.takeWhile test ∧
      (cursor.widen origin outer).skipWhile test =
        (cursor.skipWhile test).widen origin outer := by
  obtain ⟨taken, dropped⟩ := takeWhile_append_of_within within
  refine ⟨taken, ?_⟩
  simp only [widen, skipWhile, taken, dropped, Nat.add_assoc]

theorem lt_of_advance_one {size : Nat} (some : cursor.rest ≠ [])
    (within : size ≤ (cursor.advance 1).rest.length) :
    size < cursor.rest.length := by
  have positive := List.length_pos_iff.mpr some
  rw [length_advance] at within
  omega

theorem exists_rest_of_widen {taken : List Char} {next : Cursor}
    (reads : (cursor.widen origin outer).Reads taken next)
    (within : outer.length ≤ next.rest.length) :
    ∃ rest, next.rest = rest ++ outer ∧ cursor.rest = taken ++ rest := by
  have whole := congrArg List.length reads.1
  rw [length_widen, List.length_append] at whole
  obtain ⟨rest, clipped, same⟩ :=
    split_append reads.1 (show taken.length ≤ _ by omega)
  exact ⟨rest, same, clipped⟩

theorem skipUntil_widen {found : List Char → Bool} {size : Nat}
    (looks : Looks found size)
    (edge : ((cursor.widen origin outer).skipUntil found).rest = outer ∨
      outer.length + size ≤
        ((cursor.widen origin outer).skipUntil found).rest.length) :
    takeUntil found (cursor.widen origin outer).rest =
      takeUntil found cursor.rest ∧
      (cursor.widen origin outer).skipUntil found =
        (cursor.skipUntil found).widen origin outer := by
  have within : outer.length ≤ ((cursor.widen origin outer).skipUntil
        found).rest.length := by
    rcases edge with same | longer
    · rw [same]
    · omega
  obtain ⟨rest, stop, _⟩ :=
    exists_rest_of_widen (reads_skipUntil _ found) within
  have ends : rest = [] ∨ found rest := by
    rw [stop, List.length_append] at edge
    rcases edge with same | longer
    · exact .inl (List.append_left_eq_self.mp same)
    · cases rest with
      | nil => exact .inl rfl
      | cons char more =>
          have here : found (char :: more ++ outer) := found_of_dropUntil stop
          exact .inr (looks.shrinks _ _ (by omega) here)
  have dropped : dropUntil found (cursor.rest ++ outer) = rest ++ outer := stop
  obtain ⟨taken, clipped⟩ := takeUntil_append_of_within looks dropped ends
  refine ⟨taken, ?_⟩
  simp only [widen, skipUntil, taken, dropped, clipped, Nat.add_assoc]

theorem rest_ne_nil_of_widen
    (longer : outer.length < (cursor.widen origin outer).rest.length) :
    cursor.rest ≠ [] := by
  rintro none
  rw [length_widen, none] at longer
  simp at longer

theorem skipWhile_widen_of_lt {test : Char → Bool}
    (longer :
      outer.length < ((cursor.widen origin outer).skipWhile test).rest.length) :
    (cursor.widen origin outer).rest.takeWhile test =
      cursor.rest.takeWhile test ∧
      (cursor.widen origin outer).skipWhile test =
        (cursor.skipWhile test).widen origin outer ∧
      (cursor.skipWhile test).rest ≠ [] := by
  obtain ⟨taken, skipped⟩ := skipWhile_widen (Nat.le_of_lt longer)
  rw [skipped] at longer
  exact ⟨taken, skipped, rest_ne_nil_of_widen longer⟩

end Cursor

namespace Token

section Attributes

variable {cursor stop : Cursor} {origin : Nat} {outer : List Char}

theorem readQuoted_eq_ok {failure : Failure} {quote : Quote} {mark : Char}
    {value : Attribute.Value} :
    readQuoted failure quote mark cursor = .ok (value, stop) ↔
      ((cursor.advance 1).skipWhile fun char => char != mark).rest ≠ [] ∧
      (⟨String.ofList ((cursor.advance 1).rest.takeWhile fun char => char !=
        mark), quote,
          ⟨(cursor.advance 1).offset,
            ((cursor.advance 1).skipWhile fun char => char != mark).offset⟩⟩,
        ((cursor.advance 1).skipWhile fun char => char != mark).advance 1) =
          (value, stop) := by
  unfold readQuoted
  dsimp only
  split <;> rename_i rest <;> simp [rest]

theorem readUnquoted_eq_ok {failure : Failure} {value : Attribute.Value} :
    readUnquoted failure cursor = .ok (value, stop) ↔
      (cursor.skipWhile isUnquotedPart).rest ≠ [] ∧
      (⟨String.ofList (cursor.rest.takeWhile isUnquotedPart), .unquoted,
          ⟨cursor.offset, (cursor.skipWhile isUnquotedPart).offset⟩⟩,
        cursor.skipWhile isUnquotedPart) = (value, stop) := by
  unfold readUnquoted
  dsimp only
  split <;> rename_i rest <;> simp [rest]

theorem readQuoted_clips {failure : Failure} {quote : Quote} {mark : Char}
    {value : Attribute.Value} (some : cursor.rest ≠ [])
    (read : readQuoted failure quote mark (cursor.widen origin outer) =
      .ok (value, stop))
    (within : outer.length ≤ stop.rest.length) (other : Failure) :
    ∃ inside last, readQuoted other quote mark cursor = .ok (inside, last) ∧
      value = inside.shift origin ∧ stop = last.widen origin outer := by
  obtain ⟨more, same⟩ := readQuoted_eq_ok.mp read
  obtain ⟨rfl, rfl⟩ := Prod.mk.inj same
  rw [Cursor.advance_one_widen some] at more within ⊢
  obtain ⟨taken, skipped, onward⟩ :=
    Cursor.skipWhile_widen_of_lt (Cursor.lt_of_advance_one more within)
  rw [skipped]
  refine ⟨_, _, readQuoted_eq_ok.mpr ⟨onward, rfl⟩, ?_,
    Cursor.advance_one_widen onward⟩
  rw [taken]
  rfl

theorem readUnquoted_clips {failure : Failure} {value : Attribute.Value}
    (read : readUnquoted failure (cursor.widen origin outer) =
      .ok (value, stop))
    (within : outer.length < stop.rest.length) (other : Failure) :
    ∃ inside last, readUnquoted other cursor = .ok (inside, last) ∧
      value = inside.shift origin ∧ stop = last.widen origin outer := by
  obtain ⟨_, same⟩ := readUnquoted_eq_ok.mp read
  obtain ⟨rfl, rfl⟩ := Prod.mk.inj same
  obtain ⟨taken, skipped, onward⟩ := Cursor.skipWhile_widen_of_lt within
  rw [skipped]
  refine ⟨_, _, readUnquoted_eq_ok.mpr ⟨onward, rfl⟩, ?_, rfl⟩
  rw [taken]
  rfl

theorem head?_widen (some : cursor.rest ≠ []) :
    (cursor.widen origin outer).rest.head? = cursor.rest.head? :=
  List.head?_append_of_ne_nil _ some

theorem readValue_eq (name tag : String) (start tagStart : Nat)
    (cursor : Cursor) :
    readValue name tag start tagStart cursor =
      if cursor.rest.head? = some '"' then
        readQuoted ⟨.unterminatedValue name tag, start⟩ .double '"' cursor
      else if cursor.rest.head? = some '\'' then
        readQuoted ⟨.unterminatedValue name tag, start⟩ .single '\'' cursor
      else readUnquoted ⟨.unterminatedTag tag, tagStart⟩ cursor := by
  unfold readValue
  split
  · rename_i rest
    simp [rest]
  · rename_i rest
    simp [rest]
  · rename_i notDouble notSingle
    have head : ∀ mark, (∀ rest, cursor.rest = mark :: rest → False) →
        cursor.rest.head? ≠ some mark := by
      intro mark none head
      obtain ⟨rest, shape⟩ := List.head?_eq_some_iff.mp head
      exact none rest shape
    rw [if_neg (head _ notDouble), if_neg (head _ notSingle)]

theorem readValue_clips {name tag : String} {start tagStart : Nat}
    {value : Attribute.Value} (some : cursor.rest ≠ [])
    (read : readValue name tag start tagStart (cursor.widen origin outer) =
      .ok (value, stop))
    (within : outer.length < stop.rest.length)
    (otherStart otherTagStart : Nat) :
    ∃ inside last, readValue name tag otherStart otherTagStart cursor =
      .ok (inside, last) ∧
      value = inside.shift origin ∧ stop = last.widen origin outer := by
  rw [readValue_eq, head?_widen some] at read
  rw [readValue_eq]
  split at read
  · rename_i double
    rw [if_pos double]
    exact readQuoted_clips some read (Nat.le_of_lt within) _
  · rename_i double
    rw [if_neg double]
    split at read
    · rename_i single
      rw [if_pos single]
      exact readQuoted_clips some read (Nat.le_of_lt within) _
    · rename_i single
      rw [if_neg single]
      exact readUnquoted_clips read within _

def afterName (cursor : Cursor) : Cursor :=
  (cursor.advance (attributeName cursor.rest).length).skipWhile isTagBlank

def onValue (cursor : Cursor) : Cursor :=
  (cursor.advance 1).skipWhile isTagBlank

theorem length_onValue_le (cursor : Cursor) :
    (onValue cursor).rest.length ≤ cursor.rest.length - 1 := by
  rw [← Cursor.length_advance]
  exact Cursor.length_skipWhile_le ..

theorem readAttribute_eq_ok {tag : String} {tagStart : Nat} {attr : Attribute} :
    readAttribute tag tagStart cursor = .ok (attr, stop) ↔
      ((afterName cursor).rest.head? = some '=' ∧
        ∃ value, readValue (String.ofList (attributeName cursor.rest)) tag
          cursor.offset tagStart
            (onValue (afterName cursor)) = .ok (value, stop) ∧
          attr = ⟨String.ofList (attributeName cursor.rest), some value,
            ⟨cursor.offset, stop.offset⟩⟩) ∨
      (afterName cursor).rest.head? ≠ some '=' ∧ stop = afterName cursor ∧
        attr = ⟨String.ofList (attributeName cursor.rest), none,
          ⟨cursor.offset, stop.offset⟩⟩ := by
  unfold readAttribute
  dsimp only
  rw [← afterName]
  split
  · rename_i rest
    have head : (afterName cursor).rest.head? = some '=' := by
      rw [rest, List.head?_cons]
    rw [← onValue, Except.map_eq_ok]
    simp only [head, true_and, ne_eq, not_true_eq_false, false_and, or_false,
      Prod.exists, Prod.mk.injEq]
    constructor
    · rintro ⟨value, last, read, rfl, rfl⟩
      exact ⟨value, read, rfl⟩
    · rintro ⟨value, read, rfl⟩
      exact ⟨value, stop, read, rfl, rfl⟩
  · rename_i none
    have head : (afterName cursor).rest.head? ≠ some '=' := by
      intro head
      obtain ⟨rest, shape⟩ := List.head?_eq_some_iff.mp head
      exact none rest shape
    simp only [head, false_and, ne_eq, not_false_eq_true, true_and, false_or,
      Except.ok.injEq, Prod.mk.injEq]
    constructor
    · rintro ⟨rfl, rfl⟩
      exact ⟨rfl, rfl⟩
    · rintro ⟨rfl, rfl⟩
      exact ⟨rfl, rfl⟩

theorem attributeName_append {chars : List Char} (some : chars ≠ [])
    (within : (attributeName (chars ++ outer)).length ≤ chars.length) :
    attributeName (chars ++ outer) = attributeName chars := by
  obtain ⟨first, rest, rfl⟩ := List.exists_cons_of_ne_nil some
  by_cases equals : first = '='
  · subst equals
    rfl
  · have taken : ∀ chars : List Char,
        attributeName (first :: chars) =
          first :: chars.takeWhile isAttributeNamePart := by
      intro chars
      unfold attributeName
      split <;> simp_all
    rw [List.cons_append, taken] at within ⊢
    have whole := congrArg List.length
      (List.takeWhile_append_dropWhile (p := isAttributeNamePart)
        (l := rest ++ outer))
    simp only [List.length_append, List.length_cons] at whole within
    rw [taken, (takeWhile_append_of_within (by omega)).1]

theorem afterName_widen (some : cursor.rest ≠ [])
    (within :
      outer.length ≤ (afterName (cursor.widen origin outer)).rest.length) :
    attributeName (cursor.widen origin outer).rest = attributeName cursor.rest ∧
      afterName (cursor.widen origin outer) =
        (afterName cursor).widen origin outer := by
  have size := (begins_attributeName (cursor.widen origin outer).rest).length_le
  have shorter := Cursor.length_skipWhile_le
    ((cursor.widen origin outer).advance
      (attributeName (cursor.widen origin outer).rest).length)
    isTagBlank
  rw [Cursor.length_advance, Cursor.length_widen, ← afterName] at shorter
  rw [Cursor.length_widen] at size
  have name : attributeName (cursor.widen origin outer).rest =
      attributeName cursor.rest :=
    attributeName_append some
        (show (attributeName (cursor.widen origin outer).rest).length ≤ _ by
      omega)
  refine ⟨name, ?_⟩
  unfold afterName at within ⊢
  rw [name, Cursor.advance_widen (begins_attributeName cursor.rest).length_le]
    at within ⊢
  exact (Cursor.skipWhile_widen within).2

theorem onValue_widen (some : cursor.rest ≠ [])
    (within :
      outer.length ≤ (onValue (cursor.widen origin outer)).rest.length) :
    onValue (cursor.widen origin outer) =
      (onValue cursor).widen origin outer := by
  unfold onValue at within ⊢
  rw [Cursor.advance_one_widen some] at within ⊢
  exact (Cursor.skipWhile_widen within).2

theorem readAttribute_clips {tag : String} {tagStart : Nat} {attr : Attribute}
    (some : cursor.rest ≠ [])
    (read : readAttribute tag tagStart (cursor.widen origin outer) =
      .ok (attr, stop))
    (within : outer.length < stop.rest.length) (other : Nat) :
    ∃ inside last, readAttribute tag other cursor = .ok (inside, last) ∧
      attr = inside.shift origin ∧ stop = last.widen origin outer := by
  rcases readAttribute_eq_ok.mp read with ⟨equals, value, valueRead, rfl⟩ |
    ⟨bare, rfl, rfl⟩
  · have shorter := length_readValue_le valueRead
    have onward := length_onValue_le (afterName (cursor.widen origin outer))
    have inside :
      outer.length < (afterName (cursor.widen origin outer)).rest.length := by
      omega
    obtain ⟨name, named⟩ := afterName_widen some (Nat.le_of_lt inside)
    rw [named] at equals valueRead shorter inside
    have begun := Cursor.rest_ne_nil_of_widen inside
    rw [head?_widen begun] at equals
    have inside : outer.length <
          (onValue ((afterName cursor).widen origin outer)).rest.length := by
      omega
    have opening := onValue_widen begun (Nat.le_of_lt inside)
    rw [opening] at inside valueRead
    have valued := Cursor.rest_ne_nil_of_widen inside
    rw [name] at valueRead
    obtain ⟨value, last, clipped, rfl, rfl⟩ :=
      readValue_clips valued valueRead within cursor.offset other
    refine ⟨_, last, readAttribute_eq_ok.mpr
      (.inl ⟨equals, value, clipped, rfl⟩), ?_, rfl⟩
    rw [name]
    rfl
  · obtain ⟨name, named⟩ := afterName_widen some (Nat.le_of_lt within)
    rw [named] at within bare ⊢
    rw [head?_widen (Cursor.rest_ne_nil_of_widen within)] at bare
    refine ⟨_, _, readAttribute_eq_ok.mpr (.inr ⟨bare, rfl, rfl⟩), ?_, rfl⟩
    rw [name]
    rfl

section Readings

variable {tag : String} {tagStart : Nat}

theorem readAttributes_close {rest : List Char}
    (begins : cursor.rest = '>' :: rest) :
    readAttributes tag tagStart cursor = .ok ([], false, cursor.advance 1) := by
  rw [readAttributes]
  split <;> simp_all

theorem readAttributes_selfClose {rest : List Char}
    (begins : cursor.rest = '/' :: '>' :: rest) :
    readAttributes tag tagStart cursor = .ok ([], true, cursor.advance 2) := by
  rw [readAttributes]
  split <;> simp_all

theorem readAttributes_slash {rest : List Char}
    (begins : cursor.rest = '/' :: rest) (behind : ∀ more, rest ≠ '>' :: more) :
    readAttributes tag tagStart cursor =
      readAttributes tag tagStart
        ((cursor.advance 1).skipWhile isTagBlank) := by
  rw [readAttributes]
  split <;> rename_i shape <;> cases begins.symm.trans shape
  · exact absurd rfl (behind _)
  · rfl
  · rename_i notSlash _
    exact absurd rfl notSlash

theorem readAttributes_more {first : Char} {rest : List Char} {attr : Attribute}
    {next : Cursor} {attributes : List Attribute} {selfClosing : Bool}
    (begins : cursor.rest = first :: rest) (notClose : first ≠ '>')
    (notSlash : first ≠ '/')
    (here : readAttribute tag tagStart cursor = .ok (attr, next))
    (behind : readAttributes tag tagStart (next.skipWhile isTagBlank) =
      .ok (attributes, selfClosing, stop)) :
    readAttributes tag tagStart cursor =
      .ok (attr :: attributes, selfClosing, stop) := by
  rw [readAttributes]
  split <;> rename_i shape <;> cases begins.symm.trans shape
  · exact absurd rfl notClose
  · exact absurd rfl notSlash
  · exact absurd rfl notSlash
  · split
    · rename_i read
      rw [here] at read
      cases read
    · rename_i read
      rw [here] at read
      cases read
      rw [behind]
      rfl

end Readings

theorem exists_cons_of_widen {char : Char} {tail : List Char}
    (some : cursor.rest ≠ [])
    (begins : (cursor.widen origin outer).rest = char :: tail) :
    ∃ rest, cursor.rest = char :: rest ∧ tail = rest ++ outer := by
  obtain ⟨first, rest, shape⟩ := List.exists_cons_of_ne_nil some
  rw [Cursor.widen, shape] at begins
  obtain ⟨rfl, rfl⟩ := List.cons.inj begins
  exact ⟨rest, shape, rfl⟩

theorem length_readAttributes_lt {tag : String} {tagStart : Nat}
    {attributes : List Attribute} {selfClosing : Bool}
    (read : readAttributes tag tagStart cursor =
      .ok (attributes, selfClosing, stop)) :
    stop.rest.length < cursor.rest.length := by
  fun_induction readAttributes tag tagStart cursor
    generalizing attributes selfClosing stop with
  | case1 => cases read
  | case2 cursor tail rest | case3 cursor tail rest =>
      simp only [Except.ok.injEq, Prod.mk.injEq] at read
      rw [← read.2.2, Cursor.length_advance, rest]
      simp only [List.length_cons]
      omega
  | case4 cursor tail _ rest induction =>
      have shorter := (cursor.advance 1).length_skipWhile_le isTagBlank
      rw [Cursor.length_advance] at shorter
      exact Nat.lt_of_lt_of_le (induction read)
        (Nat.le_trans shorter (Nat.sub_le ..))
  | case5 => cases read
  | case6 cursor first tail _ _ _ rest attr next here induction =>
      obtain ⟨⟨more, closing, last⟩, behind, same⟩ := Except.map_eq_ok.mp read
      simp only [Prod.mk.injEq] at same
      rw [← same.2.2]
      calc
        last.rest.length < (next.skipWhile isTagBlank).rest.length :=
          induction behind
        _ ≤ next.rest.length := next.length_skipWhile_le isTagBlank
        _ ≤ cursor.rest.length :=
          Nat.le_of_lt (length_readAttribute_lt (by simp [rest]) here)

theorem readAttributes_clips {tag : String} {tagStart : Nat}
    {attributes : List Attribute} {selfClosing : Bool}
    (read : readAttributes tag tagStart (cursor.widen origin outer) =
      .ok (attributes, selfClosing, stop))
    (within : outer.length ≤ stop.rest.length) (other : Nat) :
    ∃ clipped last, readAttributes tag other cursor = .ok (clipped, selfClosing,
      last) ∧
      attributes = clipped.map (fun attr => attr.shift origin) ∧
      stop = last.widen origin outer := by
  have some : cursor.rest ≠ [] :=
    Cursor.rest_ne_nil_of_widen
      (Nat.lt_of_le_of_lt within (length_readAttributes_lt read))
  generalize wide : cursor.widen origin outer = whole at read
  fun_induction readAttributes tag tagStart whole
    generalizing cursor attributes selfClosing stop with
  | case1 => cases read
  | case2 whole tail rest =>
      simp only [Except.ok.injEq, Prod.mk.injEq] at read
      obtain ⟨rfl, rfl, rfl⟩ := read
      subst wide
      obtain ⟨more, shape, _⟩ := exists_cons_of_widen some rest
      exact ⟨[], _, readAttributes_close shape, rfl,
        Cursor.advance_one_widen some⟩
  | case3 whole tail rest =>
      simp only [Except.ok.injEq, Prod.mk.injEq] at read
      obtain ⟨rfl, rfl, rfl⟩ := read
      subst wide
      obtain ⟨more, shape, behind⟩ := exists_cons_of_widen some rest
      have longer := congrArg List.length rest
      rw [Cursor.length_advance] at within
      rw [Cursor.length_widen] at within longer
      simp only [List.length_cons] at longer
      have two : 2 ≤ cursor.rest.length := by omega
      cases more with
      | nil => simp [shape] at two
      | cons second more =>
          obtain ⟨rfl, _⟩ := List.cons.inj behind
          exact ⟨[], _, readAttributes_selfClose shape, rfl,
            Cursor.advance_widen two⟩
  | case4 whole tail notClose rest induction =>
      subst wide
      obtain ⟨more, shape, behind⟩ := exists_cons_of_widen some rest
      have longer := length_readAttributes_lt read
      rw [Cursor.advance_one_widen some] at read longer induction
      obtain ⟨_, skipped, onward⟩ :=
        Cursor.skipWhile_widen_of_lt (Nat.lt_of_le_of_lt within longer)
      obtain ⟨clipped, last, clips, same, stops⟩ :=
        induction within onward skipped.symm read
      refine ⟨clipped, last, ?_, same, stops⟩
      rw [readAttributes_slash shape]
      · exact clips
      · rintro others rfl
        exact notClose _ behind
  | case5 => cases read
  | case6 whole first tail notClose _ notSlash rest attr next here induction =>
      subst wide
      obtain ⟨more, shape, _⟩ := exists_cons_of_widen some rest
      obtain ⟨⟨others, closing, last⟩, behind, same⟩ := Except.map_eq_ok.mp read
      simp only [Prod.mk.injEq] at same
      obtain ⟨rfl, rfl, rfl⟩ := same
      have longer := length_readAttributes_lt behind
      have shorter := next.length_skipWhile_le isTagBlank
      obtain ⟨inside, next, clips, rfl, rfl⟩ :=
        readAttribute_clips some here (by omega) other
      obtain ⟨_, skipped, onward⟩ :=
        Cursor.skipWhile_widen_of_lt (Nat.lt_of_le_of_lt within longer)
      obtain ⟨clipped, last, clipsBehind, rfl, rfl⟩ :=
        induction within onward skipped.symm behind
      exact ⟨_ :: clipped, last,
        readAttributes_more shape notClose notSlash clips clipsBehind, rfl, rfl⟩

end Attributes

end Token

end Stencil
