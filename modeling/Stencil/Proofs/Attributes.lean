import Stencil.Proofs.Widening

namespace Stencil

open Text

/-! Where the attributes of a tag stand: one behind the other between the name
of the tag and its closing bracket, each with its name first and its value
inside. -/

def Quote.mark? : Quote → Option Char
  | .double => some '"'
  | .single => some '\''
  | .unquoted => none

namespace Attribute

/-- The value of an attribute stands inside the span of the attribute. In the
text its mark is on both sides of it and not in it; without a mark nothing is in
it that would end it. -/
structure Value.Placed (chars : List Char) (span : Span) (value : Value) :
    Prop where
  within : span.covers value.span
  spelled : slice? chars value.span.start value.span.stop =
    some value.text.toList
  quoted : ∀ mark ∈ value.quote.mark?, mark ∉ value.text.toList ∧
    ∃ start, start + 1 = value.span.start ∧
      slice? chars start (value.span.stop + 1) =
        some (mark :: (value.text.toList ++ [mark])) ∧
      span.covers ⟨start, value.span.stop + 1⟩
  unquoted : value.quote = .unquoted →
    ∀ char ∈ value.text.toList, isTagBlank char = false ∧ char ≠ '>'

theorem Value.Placed.widen {chars : List Char} {value : Value}
    {inner outer : Span} (placed : value.Placed chars inner)
    (covers : outer.covers inner) :
    value.Placed chars outer := by
  refine ⟨Span.covers_trans covers placed.within, placed.spelled, ?_,
    placed.unquoted⟩
  intro mark marked
  obtain ⟨absent, start, before, enclosed, inside⟩ := placed.quoted mark marked
  exact ⟨absent, start, before, enclosed, Span.covers_trans covers inside⟩

/-- An attribute takes some of the text, which begins with its name, and its
value is in there. -/
structure Placed (chars : List Char) (attr : Attribute) : Prop where
  nonempty : attr.span.start < attr.span.stop
  named : ∃ text, slice? chars attr.span.start attr.span.stop = some text ∧
    attr.name.toList <+: text
  value : ∀ value ∈ attr.value, value.Placed chars attr.span

/-- Attributes one behind the other, from an offset on; the last one ends before
another offset. -/
def Row (chars : List Char) : Nat → List Attribute → Nat → Prop
  | start, [], stop => start < stop
  | start, attr :: rest, stop =>
      start ≤ attr.span.start ∧ attr.Placed chars ∧
        Row chars attr.span.stop rest stop

namespace Row

variable {chars : List Char} {start later stop : Nat}
  {attributes : List Attribute}

theorem of_le (row : Row chars later attributes stop) (before : start ≤ later) :
    Row chars start attributes stop := by
  cases attributes with
  | nil => exact Nat.lt_of_le_of_lt before row
  | cons attr rest => exact ⟨Nat.le_trans before row.1, row.2⟩

theorem start_lt (row : Row chars start attributes stop) : start < stop := by
  induction attributes generalizing start with
  | nil => exact row
  | cons attr rest induction =>
      obtain ⟨after, placed, behind⟩ := row
      exact Nat.lt_of_le_of_lt after
        (Nat.lt_trans placed.nonempty (induction behind))

theorem within (row : Row chars start attributes stop) :
    ∀ attr ∈ attributes,
      start ≤ attr.span.start ∧ attr.span.stop < stop ∧ attr.Placed chars := by
  induction attributes generalizing start with
  | nil => simp
  | cons attr rest induction =>
      obtain ⟨after, placed, behind⟩ := row
      rintro other (_ | ⟨_, member⟩)
      · exact ⟨after, behind.start_lt, placed⟩
      · obtain ⟨beyond, others⟩ := induction behind other member
        have forward := Nat.le_trans after (Nat.le_of_lt placed.nonempty)
        exact ⟨Nat.le_trans forward beyond, others⟩

theorem pairwise (row : Row chars start attributes stop) :
    attributes.Pairwise fun left right =>
      left.span.stop ≤ right.span.start := by
  induction attributes generalizing start with
  | nil => exact .nil
  | cons attr rest induction =>
      obtain ⟨_, _, behind⟩ := row
      exact .cons (fun other member => (behind.within other member).1)
        (induction behind)

end Row

end Attribute

/-- A start tag in the text: its name stands behind the bracket that opens it,
and its attributes stand apart from one another between the name and the bracket
that closes it. -/
structure Tag.Placed (chars : List Char) (span : Span) (tag : Tag) : Prop where
  named : slice? chars (span.start + 1)
    (span.start + 1 + byteLength tag.name.toList) =
    some tag.name.toList
  within : ∀ attr ∈ tag.attributes,
    span.start + 1 + byteLength tag.name.toList ≤ attr.span.start ∧
    attr.span.stop < span.stop
  apart : tag.attributes.Pairwise fun left right =>
    left.span.stop ≤ right.span.start
  attributes : ∀ attr ∈ tag.attributes, attr.Placed chars

namespace Token

variable {chars : List Char} {cursor stop next : Cursor} {tokens : List Token}

theorem readQuoted_reads {failure : Failure} {quote : Quote} {mark : Char}
    {value : Attribute.Value} (marked : quote.mark? = some mark)
    (opens : cursor.rest.head? = some mark)
    (read : readQuoted failure quote mark cursor = .ok (value, stop)) :
    value.quote = quote ∧ mark ∉ value.text.toList ∧
      cursor.Reads (mark :: (value.text.toList ++ [mark])) stop ∧
      cursor.offset + 1 = value.span.start ∧
      value.span.stop + 1 = stop.offset := by
  obtain ⟨more, same⟩ := readQuoted_eq_ok.mp read
  obtain ⟨rfl, rfl⟩ := Prod.mk.inj same
  obtain ⟨rest, begins⟩ := List.head?_eq_some_iff.mp opens
  obtain ⟨char, tail, behind⟩ := List.exists_cons_of_ne_nil more
  have stopped :=
    Cursor.head_skipWhile (show char ∈ List.head? _ by rw [behind]; rfl)
  obtain rfl : char = mark := by simpa using stopped
  have narrow : byteLength [char] = 1 := by
    cases quote <;> cases marked <;> rfl
  have opening := Cursor.reads_head begins
  have inside := (cursor.advance 1).reads_skipWhile fun other => other != char
  have closing := Cursor.reads_head behind
  refine ⟨rfl, ?_, ?_, ?_, ?_⟩
  · rw [String.toList_ofList]
    exact fun member => by simpa using List.mem_takeWhile_imp member
  · rw [String.toList_ofList]
    exact opening.trans (inside.trans closing)
  · rw [opening.2, narrow]
  · rw [closing.2, narrow]

theorem readQuoted_placed {failure : Failure} {quote : Quote} {mark : Char}
    {value : Attribute.Value} (stands : cursor.Stands chars)
    (marked : quote.mark? = some mark) (opens : cursor.rest.head? = some mark)
    (read : readQuoted failure quote mark cursor = .ok (value, stop)) :
    value.Placed chars ⟨cursor.offset, stop.offset⟩ := by
  obtain ⟨same, absent, reads, start, last⟩ :=
    readQuoted_reads marked opens read
  refine ⟨Span.covers_iff.mpr ⟨?_, ?_⟩, (readQuoted_spells stands read).2, ?_,
    ?_⟩
  · rw [← start]
    exact Nat.le_succ _
  · rw [← last]
    exact Nat.le_succ _
  · intro other found
    rw [same, marked] at found
    obtain rfl := Option.some.inj found
    refine ⟨absent, cursor.offset, start, ?_, ?_⟩
    · rw [last]
      exact stands.slice? reads
    · rw [last]
      exact Span.covers_iff.mpr ⟨Nat.le_refl _, Nat.le_refl _⟩
  · intro unquoted
    rw [← same, unquoted] at marked
    cases marked

theorem readUnquoted_placed {failure : Failure} {value : Attribute.Value}
    (stands : cursor.Stands chars)
    (read : readUnquoted failure cursor = .ok (value, stop)) :
    value.Placed chars ⟨cursor.offset, stop.offset⟩ := by
  obtain ⟨_, same⟩ := readUnquoted_eq_ok.mp read
  obtain ⟨rfl, rfl⟩ := Prod.mk.inj same
  refine ⟨Span.covers_iff.mpr ⟨Nat.le_refl _, Nat.le_refl _⟩, ?_,
    by simp [Quote.mark?], ?_⟩
  · rw [String.toList_ofList]
    exact stands.slice? (cursor.reads_skipWhile isUnquotedPart)
  · intro _ char member
    rw [String.toList_ofList] at member
    have part := List.mem_takeWhile_imp member
    simpa [isUnquotedPart] using part

theorem readValue_placed {name tag : String} {start tagStart : Nat}
    {value : Attribute.Value} (stands : cursor.Stands chars)
    (read : readValue name tag start tagStart cursor = .ok (value, stop)) :
    value.Placed chars ⟨cursor.offset, stop.offset⟩ := by
  rw [readValue_eq] at read
  split at read
  · rename_i double
    exact readQuoted_placed stands rfl double read
  · split at read
    · rename_i single
      exact readQuoted_placed stands rfl single read
    · exact readUnquoted_placed stands read

theorem reads_attributeName (cursor : Cursor) :
    cursor.Reads (attributeName cursor.rest)
      (cursor.advance (attributeName cursor.rest).length) := by
  have reads := cursor.reads_advance (attributeName cursor.rest).length
  rwa [← List.prefix_iff_eq_take.mp (begins_attributeName cursor.rest)] at reads

theorem readAttribute_placed {tag : String} {tagStart : Nat} {attr : Attribute}
    (stands : cursor.Stands chars) (more : cursor.rest ≠ [])
    (read : readAttribute tag tagStart cursor = .ok (attr, stop)) :
    attr.span = ⟨cursor.offset, stop.offset⟩ ∧ attr.Placed chars := by
  have shorter := length_readAttribute_lt more read
  have name := reads_attributeName cursor
  have blanks := Cursor.reads_skipWhile
    (cursor.advance (attributeName cursor.rest).length) isTagBlank
  rcases readAttribute_eq_ok.mp read with ⟨_, value, valueRead, rfl⟩ |
    ⟨_, rfl, rfl⟩
  · have equals := (Cursor.reads_advance (afterName cursor) 1).trans
      (Cursor.reads_skipWhile _ isTagBlank)
    have opening := stands.reads (name.trans (blanks.trans equals))
    obtain ⟨⟨taken, reads⟩, _⟩ := readValue_spells opening valueRead
    have whole := name.trans ((blanks.trans equals).trans reads)
    refine ⟨rfl, whole.offset_lt (whole.ne_nil shorter),
      ⟨_, stands.slice? whole, ?_⟩, ?_⟩
    · rw [String.toList_ofList]
      exact List.prefix_append ..
    · rintro _ ⟨⟩
      refine (readValue_placed opening valueRead).widen
        (Span.covers_iff.mpr ⟨?_, Nat.le_refl _⟩)
      exact (name.trans (blanks.trans equals)).offset_le
  · have whole := name.trans blanks
    refine ⟨rfl, whole.offset_lt (whole.ne_nil shorter),
      ⟨_, stands.slice? whole, ?_⟩, by simp⟩
    rw [String.toList_ofList]
    exact List.prefix_append ..

/-- The attributes of a tag are in a row up to the bracket that closes it. -/
theorem readAttributes_row {tag : String} {tagStart : Nat}
    {attributes : List Attribute} {selfClosing : Bool}
    (stands : cursor.Stands chars)
    (read : readAttributes tag tagStart cursor =
      .ok (attributes, selfClosing, stop)) :
    Attribute.Row chars cursor.offset attributes stop.offset := by
  fun_induction readAttributes tag tagStart cursor
    generalizing attributes selfClosing stop with
  | case1 => cases read
  | case2 cursor tail rest | case3 cursor tail rest =>
      simp only [Except.ok.injEq, Prod.mk.injEq] at read
      obtain ⟨rfl, _, rfl⟩ := read
      exact (cursor.reads_advance _).offset_lt (by simp [rest])
  | case4 cursor tail _ rest induction =>
      have slash := (cursor.reads_advance 1).trans
        (Cursor.reads_skipWhile _ isTagBlank)
      exact (induction (stands.reads slash) read).of_le slash.offset_le
  | case5 => cases read
  | case6 cursor first tail _ _ _ rest attr next readFirst induction =>
      obtain ⟨⟨others, closing, last⟩, readRest, same⟩ :=
        Except.map_eq_ok.mp read
      simp only [Prod.mk.injEq] at same
      obtain ⟨rfl, _, rfl⟩ := same
      obtain ⟨span, placed⟩ :=
        readAttribute_placed stands (by simp [rest]) readFirst
      obtain ⟨⟨_, firstReads⟩, _⟩ := readAttribute_spells stands readFirst
      have blanks := next.reads_skipWhile isTagBlank
      have behind := induction (stands.reads (firstReads.trans blanks)) readRest
      refine ⟨by rw [span], placed, ?_⟩
      rw [span]
      exact behind.of_le blanks.offset_le

theorem readStartTag_placed {letter : Char} {rest : List Char}
    (opens : cursor.rest = '<' :: letter :: rest) (stands : cursor.Stands chars)
    (read : readStartTag cursor = .ok (tokens, next)) {tag : Tag} {span : Span}
    (member : ⟨.startTag tag, span⟩ ∈ tokens) : tag.Placed chars span := by
  obtain ⟨found, stop, named, readRest, raw, rfl, behind⟩ :=
    readStartTag_cases read
  have bracket := Cursor.reads_head opens
  have name := (cursor.advance 1).reads_skipWhile isNamePart
  have blanks :=
    Cursor.reads_skipWhile ((cursor.advance 1).skipWhile isNamePart) isTagBlank
  have inside := stands.reads bracket
  have row := readAttributes_row (inside.reads (name.trans blanks)) readRest
  have start : (cursor.advance 1).offset = cursor.offset + 1 := bracket.2
  have spelled : found.name.toList =
      (cursor.advance 1).rest.takeWhile isNamePart := by
    rw [named, String.toList_ofList]
  have stopName : ((cursor.advance 1).skipWhile isNamePart).offset =
      cursor.offset + 1 + byteLength found.name.toList := by
    rw [name.2, start, spelled]
  have first : ⟨.startTag tag, span⟩ =
      Token.mk (.startTag found) ⟨cursor.offset, stop.offset⟩ := by
    rcases List.mem_cons.mp member with here | later
    · exact here
    · rcases behind with ⟨_, rfl, _⟩ | ⟨_, rfl, _⟩
      · cases later
      · rcases readRawText_tokens ((cursor.advance 1).rest.takeWhile isNamePart)
          stop with
          none | ⟨content, text⟩
        · rw [none] at later
          cases later
        · rw [text] at later
          cases List.mem_singleton.mp later
  cases first
  refine ⟨?_, ?_, row.pairwise, fun attr listed => (row.within attr listed).2.2⟩
  · rw [← stopName, ← start, spelled]
    exact inside.slice? name
  · intro attr listed
    obtain ⟨after, before, _⟩ := row.within attr listed
    rw [← stopName]
    exact ⟨Nat.le_trans blanks.offset_le after, before⟩

theorem Scans.placed (scans : Scans cursor tokens next)
    (stands : cursor.Stands chars) {tag : Tag} {span : Span}
    (member : ⟨.startTag tag, span⟩ ∈ tokens) : tag.Placed chars span := by
  induction scans with
  | done => cases member
  | read more here _ induction =>
      obtain ⟨_, reads⟩ := (readNext_tiles stands more here).exists_reads
      rcases List.mem_append.mp member with first | later
      · rcases readNext_cases here with
          ⟨_, _, opens, _, read⟩ | ⟨token, rfl, _, plain⟩ | ⟨_, rfl, _⟩
        · exact readStartTag_placed opens stands read first
        · obtain rfl := List.mem_singleton.mp first
          exact absurd rfl (plain tag)
        · cases List.mem_singleton.mp first
      · exact induction (stands.reads reads) later

end Token

/-- Wherever a source is read as tokens, every start tag among them is in its
place with all its attributes. -/
theorem Source.tokens_place_attributes {source : Source} {tokens : List Token}
    (scanned : source.tokens = .ok tokens) {tag : Tag} {span : Span}
    (member : ⟨.startTag tag, span⟩ ∈ tokens) :
    tag.Placed source.chars span := by
  obtain ⟨body, last, scans, _, rfl⟩ := Source.tokens_eq_ok.mp scanned
  rcases List.mem_append.mp member with inside | final
  · exact scans.placed (Cursor.stands_start source.chars) inside
  · cases List.mem_singleton.mp final

/-- A name that begins at that of the tag, with a quotation mark in it; a name
that is empty; an attribute without a value, up to the next one; and a value
without quotes that ends in a slash. -/
theorem Source.tokens_place_attributes_signs :
    let source := Source.ofText "<p\"é = \"a>'b\"='c' d  e=/f'/>z"
    let tag : Tag := ⟨"p", [⟨"\"é", some ⟨"a>'b", .double, ⟨9, 13⟩⟩, ⟨2, 14⟩⟩,
      ⟨"", some ⟨"c", .single, ⟨16, 17⟩⟩, ⟨14, 18⟩⟩, ⟨"d", none, ⟨19, 22⟩⟩,
      ⟨"e", some ⟨"/f'/", .unquoted, ⟨24, 28⟩⟩, ⟨22, 28⟩⟩], false⟩
    ∃ tokens, source.tokens = .ok tokens ∧ ⟨.startTag tag, ⟨0, 29⟩⟩ ∈ tokens ∧
      tag.Placed source.chars ⟨0, 29⟩ := by
  intro source tag
  have shape : source.tokens.map (fun tokens => tokens.head?) =
      .ok (some ⟨.startTag tag, ⟨0, 29⟩⟩) := by decide +kernel
  obtain ⟨tokens, scanned, first⟩ := Except.map_eq_ok.mp shape
  have member : ⟨.startTag tag, ⟨0, 29⟩⟩ ∈ tokens := List.mem_of_head? first
  exact ⟨tokens, scanned, member, Source.tokens_place_attributes scanned member⟩

end Stencil
