import Stencil.Proofs.Cursor
import Stencil.Proofs.Outcome
import Stencil.Token.Scan

namespace Stencil

open Text

/-! Tokens cover the text without gaps, and the value of an attribute is the
text under its span. -/

def Attribute.Spelled (chars : List Char) (attr : Attribute) : Prop :=
  ∀ value, attr.value = some value →
    slice? chars value.span.start value.span.stop = some value.text.toList

def Tag.isRaw (tag : Tag) : Bool :=
  isRawTextElement tag.name && !tag.selfClosing

namespace Token

/-- A token other than the last one; the attributes of a start tag are spelled
in the text. -/
structure Proper (chars : List Char) (token : Token) : Prop where
  not_eof : token.kind ≠ .eof
  spelled : ∀ tag, token.kind = .startTag tag → ∀ attr ∈ tag.attributes,
    attr.Spelled chars

/-- Tokens that follow one another between two cursors; each takes some
characters. -/
def Tiling (chars : List Char) : Cursor → List Token → Cursor → Prop
  | cursor, [], next => cursor = next
  | cursor, token :: rest, next =>
      ∃ taken middle, taken ≠ [] ∧ cursor.Reads taken middle ∧
        token.span = ⟨cursor.offset, middle.offset⟩ ∧ token.Proper chars ∧
        Tiling chars middle rest next

variable {chars : List Char}

theorem Tiling.append {cursor middle next : Cursor} {left right : List Token}
    (first : Tiling chars cursor left middle)
    (second : Tiling chars middle right next) :
    Tiling chars cursor (left ++ right) next := by
  induction left generalizing cursor with
  | nil =>
      cases first
      exact second
  | cons token rest induction =>
      obtain ⟨taken, inner, some, reads, span, proper, tail⟩ := first
      exact ⟨taken, inner, some, reads, span, proper, induction tail⟩

theorem Tiling.proper {cursor next : Cursor} {tokens : List Token}
    (tiling : Tiling chars cursor tokens next) :
    ∀ token ∈ tokens, token.Proper chars := by
  induction tokens generalizing cursor with
  | nil => simp
  | cons token rest induction =>
      obtain ⟨_, _, _, _, _, proper, behind⟩ := tiling
      rintro other (_ | ⟨_, member⟩)
      · exact proper
      · exact induction behind other member

theorem Tiling.exists_reads {cursor next : Cursor} {tokens : List Token}
    (tiling : Tiling chars cursor tokens next) :
    ∃ taken, cursor.Reads taken next := by
  induction tokens generalizing cursor with
  | nil =>
      cases tiling
      exact ⟨[], .refl _⟩
  | cons token rest induction =>
      obtain ⟨taken, middle, _, reads, _, _, tail⟩ := tiling
      obtain ⟨more, tailReads⟩ := induction tail
      exact ⟨taken ++ more, reads.trans tailReads⟩

theorem Tiling.within {cursor next : Cursor} {tokens : List Token}
    (tiling : Tiling chars cursor tokens next) :
    ∀ token ∈ tokens, cursor.offset ≤ token.span.start ∧
      token.span.start < token.span.stop ∧
      token.span.stop ≤ next.offset := by
  induction tokens generalizing cursor with
  | nil => simp
  | cons token rest induction =>
      obtain ⟨taken, middle, some, reads, span, _, behind⟩ := tiling
      have forward := reads.offset_lt some
      rintro other (_ | ⟨_, member⟩)
      · obtain ⟨_, onward⟩ := behind.exists_reads
        rw [span]
        exact ⟨Nat.le_refl _, forward, onward.offset_le⟩
      · obtain ⟨after, rest⟩ := induction behind other member
        exact ⟨Nat.le_trans (Nat.le_of_lt forward) after, rest⟩

theorem Tiling.pairwise {cursor next : Cursor} {tokens : List Token}
    (tiling : Tiling chars cursor tokens next) :
    tokens.Pairwise fun left right => left.span.stop ≤ right.span.start := by
  induction tokens generalizing cursor with
  | nil => exact .nil
  | cons token rest induction =>
      obtain ⟨_, middle, _, _, span, _, behind⟩ := tiling
      refine .cons (fun other member => ?_) (induction behind)
      rw [span]
      exact (behind.within other member).1

section Attributes

variable {cursor stop : Cursor}

theorem readQuoted_spells {failure : Failure} {quote : Quote} {mark : Char}
    {value : Attribute.Value} (stands : cursor.Stands chars)
    (read : readQuoted failure quote mark cursor = .ok (value, stop)) :
    (∃ taken, cursor.Reads taken stop) ∧
      slice? chars value.span.start value.span.stop =
        some value.text.toList := by
  have opening := cursor.reads_advance 1
  have inside := (cursor.advance 1).reads_skipWhile fun char => char != mark
  unfold readQuoted at read
  dsimp only at read
  split at read
  · cases read
  · simp only [Except.ok.injEq, Prod.mk.injEq] at read
    obtain ⟨rfl, rfl⟩ := read
    refine ⟨⟨_, (opening.trans inside).trans (Cursor.reads_advance _ 1)⟩, ?_⟩
    rw [String.toList_ofList]
    exact (stands.reads opening).slice? inside

theorem readUnquoted_spells {failure : Failure} {value : Attribute.Value}
    (stands : cursor.Stands chars)
    (read : readUnquoted failure cursor = .ok (value, stop)) :
    (∃ taken, cursor.Reads taken stop) ∧
      slice? chars value.span.start value.span.stop =
        some value.text.toList := by
  have inside := cursor.reads_skipWhile isUnquotedPart
  unfold readUnquoted at read
  dsimp only at read
  split at read
  · cases read
  · simp only [Except.ok.injEq, Prod.mk.injEq] at read
    obtain ⟨rfl, rfl⟩ := read
    refine ⟨⟨_, inside⟩, ?_⟩
    rw [String.toList_ofList]
    exact stands.slice? inside

theorem readValue_spells {name tag : String} {start tagStart : Nat}
    {value : Attribute.Value} (stands : cursor.Stands chars)
    (read : readValue name tag start tagStart cursor = .ok (value, stop)) :
    (∃ taken, cursor.Reads taken stop) ∧
      slice? chars value.span.start value.span.stop =
        some value.text.toList := by
  unfold readValue at read
  split at read
  · exact readQuoted_spells stands read
  · exact readQuoted_spells stands read
  · exact readUnquoted_spells stands read

theorem readAttribute_spells {tag : String} {tagStart : Nat} {attr : Attribute}
    (stands : cursor.Stands chars)
    (read : readAttribute tag tagStart cursor = .ok (attr, stop)) :
    (∃ taken, cursor.Reads taken stop) ∧ attr.Spelled chars := by
  have name := (cursor.reads_advance (attributeName cursor.rest).length).trans
    (Cursor.reads_skipWhile _ isTagBlank)
  unfold readAttribute at read
  dsimp only at read
  generalize (cursor.advance (attributeName cursor.rest).length).skipWhile
    isTagBlank =
    afterName at name read
  split at read
  · have equals := (afterName.reads_advance 1).trans
      (Cursor.reads_skipWhile _ isTagBlank)
    generalize (afterName.advance 1).skipWhile isTagBlank = opening
      at equals read
    cases result : readValue (String.ofList (attributeName cursor.rest)) tag
        cursor.offset tagStart
        opening with
    | error failure => simp [result, Except.map] at read
    | ok pair =>
        obtain ⟨value, last⟩ := pair
        simp only [result, Except.map, Except.ok.injEq, Prod.mk.injEq] at read
        obtain ⟨rfl, rfl⟩ := read
        obtain ⟨⟨taken, reads⟩, spelled⟩ :=
          readValue_spells ((stands.reads name).reads equals) result
        refine ⟨⟨_, (name.trans equals).trans reads⟩, ?_⟩
        intro other same
        cases same
        exact spelled
  · simp only [Except.ok.injEq, Prod.mk.injEq] at read
    obtain ⟨rfl, rfl⟩ := read
    exact ⟨⟨_, name⟩, fun value present => by cases present⟩

theorem readAttributes_spells {tag : String} {tagStart : Nat}
    {attributes : List Attribute} {selfClosing : Bool}
    (stands : cursor.Stands chars)
    (read : readAttributes tag tagStart cursor =
      .ok (attributes, selfClosing, stop)) :
    (∃ taken, cursor.Reads taken stop) ∧ ∀ attr ∈ attributes,
    attr.Spelled chars := by
  fun_induction readAttributes tag tagStart cursor
    generalizing attributes selfClosing stop with
  | case1 => cases read
  | case2 cursor tail rest =>
      simp only [Except.ok.injEq, Prod.mk.injEq] at read
      obtain ⟨rfl, _, rfl⟩ := read
      exact ⟨⟨_, cursor.reads_advance 1⟩, by simp⟩
  | case3 cursor tail rest =>
      simp only [Except.ok.injEq, Prod.mk.injEq] at read
      obtain ⟨rfl, _, rfl⟩ := read
      exact ⟨⟨_, cursor.reads_advance 2⟩, by simp⟩
  | case4 cursor tail _ rest induction =>
      have slash := (cursor.reads_advance 1).trans
        (Cursor.reads_skipWhile _ isTagBlank)
      obtain ⟨⟨taken, reads⟩, spelled⟩ := induction (stands.reads slash) read
      exact ⟨⟨_, slash.trans reads⟩, spelled⟩
  | case5 => cases read
  | case6 cursor first tail _ _ _ rest attr next readFirst induction =>
      obtain ⟨⟨firstTaken, firstReads⟩, firstSpelled⟩ :=
        readAttribute_spells stands readFirst
      have blanks := firstReads.trans (next.reads_skipWhile isTagBlank)
      cases readRest : readAttributes tag tagStart
        (next.skipWhile isTagBlank) with
      | error failure => simp [readRest, Except.map] at read
      | ok result =>
          obtain ⟨more, closing, last⟩ := result
          simp only [readRest, Except.map, Except.ok.injEq, Prod.mk.injEq]
            at read
          obtain ⟨rfl, _, rfl⟩ := read
          obtain ⟨⟨taken, reads⟩, spelled⟩ :=
            induction (stands.reads blanks) readRest
          refine ⟨⟨_, blanks.trans reads⟩, ?_⟩
          rintro other (_ | ⟨_, member⟩)
          · exact firstSpelled
          · exact spelled other member

end Attributes

section Tokens

variable {cursor next : Cursor} {tokens : List Token}

theorem tiling_plain {taken : List Char} {kind : Kind} (some : taken ≠ [])
    (reads : cursor.Reads taken next) (not_eof : kind ≠ .eof)
    (not_start : ∀ tag, kind ≠ .startTag tag) :
    Tiling chars cursor [⟨kind, ⟨cursor.offset, next.offset⟩⟩] next :=
  ⟨taken, next, some, reads, rfl,
    ⟨not_eof, fun tag same => absurd same (not_start tag)⟩, rfl⟩

theorem readComment_tiles (more : cursor.rest ≠ [])
    (read : readComment cursor = .ok (tokens, next)) :
    Tiling chars cursor tokens next := by
  have opening := (cursor.reads_advance 4).trans
    (Cursor.reads_skipUntil _ (beginsWith ['-', '-', '>']))
  unfold readComment at read
  dsimp only at read
  split at read
  · cases read
  · simp only [Except.ok.injEq, Prod.mk.injEq] at read
    obtain ⟨rfl, rfl⟩ := read
    refine tiling_plain ?_ (opening.trans (Cursor.reads_advance _ 3)) (by simp)
      (by simp)
    simp [more]

theorem readDoctype_tiles (more : cursor.rest ≠ [])
    (read : readDoctype cursor = .ok (tokens, next)) :
    Tiling chars cursor tokens next := by
  have opening := (cursor.reads_advance 2).trans
    (Cursor.reads_skipWhile _ fun char => char != '>')
  unfold readDoctype at read
  dsimp only at read
  split at read
  · cases read
  · simp only [Except.ok.injEq, Prod.mk.injEq] at read
    obtain ⟨rfl, rfl⟩ := read
    refine tiling_plain ?_ (opening.trans (Cursor.reads_advance _ 1)) (by simp)
      (by simp)
    simp [more]

theorem readEndTag_tiles (more : cursor.rest ≠ [])
    (read : readEndTag cursor = .ok (tokens, next)) :
    Tiling chars cursor tokens next := by
  have opening :=
    ((cursor.reads_advance 2).trans (Cursor.reads_skipWhile _ isNamePart)).trans
    (Cursor.reads_skipWhile _ fun char => char != '>')
  unfold readEndTag at read
  dsimp only at read
  split at read
  · cases read
  · simp only [Except.ok.injEq, Prod.mk.injEq] at read
    obtain ⟨rfl, rfl⟩ := read
    refine tiling_plain ?_ (opening.trans (Cursor.reads_advance _ 1)) (by simp)
      (by simp)
    simp [more]

theorem readText_tiles (more : cursor.rest ≠ []) :
    Tiling chars cursor (readText cursor).1 (readText cursor).2 := by
  refine tiling_plain ?_
    ((cursor.reads_advance 1).trans (Cursor.reads_skipUntil _ beginsMarkup))
      (by simp) (by simp)
  simp [more]

theorem readRawText_tiles (name : List Char) (cursor : Cursor) :
    Tiling chars cursor (readRawText name cursor).1
      (readRawText name cursor).2 := by
  have reads :=
    cursor.reads_skipUntil (beginsWithIgnoringCase ('<' :: '/' :: name))
  unfold readRawText
  dsimp only
  split
  · rename_i nothing
    rw [nothing] at reads
    exact reads.eq_of_nil
  · rename_i something
    exact tiling_plain something reads (by simp) (by simp)

theorem readStartTag_cases (read : readStartTag cursor = .ok (tokens, next)) :
    ∃ tag stop, tag.name = String.ofList
      ((cursor.advance 1).rest.takeWhile isNamePart) ∧
      readAttributes tag.name cursor.offset
          (((cursor.advance 1).skipWhile isNamePart).skipWhile isTagBlank) =
        .ok (tag.attributes, tag.selfClosing, stop) ∧
      ∃ raw, tokens = ⟨.startTag tag, ⟨cursor.offset, stop.offset⟩⟩ :: raw ∧
        ((¬ tag.isRaw ∧ raw = [] ∧ next = stop) ∨
          tag.isRaw ∧
            raw = (readRawText ((cursor.advance 1).rest.takeWhile isNamePart)
              stop).1 ∧
            next = (readRawText ((cursor.advance 1).rest.takeWhile isNamePart)
              stop).2) := by
  unfold readStartTag at read
  simp only [bind, Except.bind] at read
  split at read
  · cases read
  · rename_i result readRest
    obtain ⟨attributes, selfClosing, stop⟩ := result
    dsimp only at read
    refine ⟨⟨_, attributes, selfClosing⟩, stop, rfl, readRest, ?_⟩
    split at read <;> rename_i raw <;>
      simp only [pure, Except.pure, Except.ok.injEq, Prod.mk.injEq] at read
    · obtain ⟨rfl, rfl⟩ := read
      exact ⟨_, rfl, .inr ⟨raw, rfl, rfl⟩⟩
    · obtain ⟨rfl, rfl⟩ := read
      exact ⟨_, rfl, .inl ⟨raw, rfl, rfl⟩⟩

theorem readStartTag_tiles (stands : cursor.Stands chars)
    (more : cursor.rest ≠ [])
    (read : readStartTag cursor = .ok (tokens, next)) :
    Tiling chars cursor tokens next := by
  have opening :=
    ((cursor.reads_advance 1).trans (Cursor.reads_skipWhile _ isNamePart)).trans
    (Cursor.reads_skipWhile _ isTagBlank)
  obtain ⟨tag, stop, _, readRest, raw, rfl, behind⟩ := readStartTag_cases read
  obtain ⟨⟨taken, reads⟩, spelled⟩ :=
    readAttributes_spells (stands.reads opening) readRest
  refine ⟨_, stop, ?_, opening.trans reads, rfl, ⟨by simp, ?_⟩, ?_⟩
  · simp [more]
  · intro other same
    cases same
    exact spelled
  · rcases behind with ⟨_, rfl, rfl⟩ | ⟨_, rfl, rfl⟩
    · rfl
    · exact readRawText_tiles _ stop

theorem readNext_tiles (stands : cursor.Stands chars) (more : cursor.rest ≠ [])
    (read : readNext cursor = .ok (tokens, next)) :
    Tiling chars cursor tokens next := by
  unfold readNext at read
  split at read
  · split at read
    · exact readComment_tiles more read
    · exact readDoctype_tiles more read
    · exact readEndTag_tiles more read
    · exact readStartTag_tiles stands more read
  · cases read
    exact readText_tiles more

theorem scanFrom_tiles (stands : cursor.Stands chars)
    (scan : scanFrom cursor = .ok tokens) :
    ∃ body last, tokens = body ++ [⟨.eof, ⟨last.offset, last.offset⟩⟩] ∧
      Tiling chars cursor body last ∧ last.rest = [] := by
  fun_induction scanFrom cursor generalizing tokens with
  | case1 cursor rest =>
      cases scan
      exact ⟨[], cursor, rfl, rfl, rest⟩
  | case2 => cases scan
  | case3 cursor char tail rest first next readFirst induction =>
      have more : cursor.rest ≠ [] := by
        rw [rest]
        exact List.cons_ne_nil _ _
      have tiles := readNext_tiles stands more readFirst
      obtain ⟨taken, reads⟩ := tiles.exists_reads
      cases scanRest : scanFrom next with
      | error failure => simp [scanRest, Except.map] at scan
      | ok others =>
          simp only [scanRest, Except.map, Except.ok.injEq] at scan
          subst scan
          obtain ⟨body, last, rfl, tail, done⟩ :=
            induction (stands.reads reads) scanRest
          exact ⟨first ++ body, last,
            by rw [List.append_assoc], tiles.append tail, done⟩

end Tokens

end Token

/-- The tokens of a source: a tiling of its whole text, then the mark of the
end. -/
theorem Source.tokens_tile {source : Source} {tokens : List Token}
    (scanned : source.tokens = .ok tokens) :
    ∃ body last, tokens = body ++ [⟨.eof, ⟨last.offset, last.offset⟩⟩] ∧
      Token.Tiling source.chars ⟨0, source.chars⟩ body last ∧
      last.offset = source.length := by
  unfold Source.tokens Token.scan at scanned
  rw [Except.mapError_eq_ok] at scanned
  have stands := Cursor.stands_start source.chars
  obtain ⟨body, last, tokens_eq, tiles, done⟩ :=
    Token.scanFrom_tiles stands scanned
  obtain ⟨taken, reads⟩ := tiles.exists_reads
  exact ⟨body, last, tokens_eq, tiles,
    (stands.reads reads).offset_eq_of_nil done⟩

theorem Source.tokens_ordered {source : Source} {tokens : List Token}
    (scanned : source.tokens = .ok tokens) :
    (∀ token ∈ tokens, token.span.start ≤ token.span.stop) ∧
      tokens.Pairwise fun left right => left.span.stop ≤ right.span.start := by
  obtain ⟨body, last, rfl, tiling, _⟩ := source.tokens_tile scanned
  constructor
  · intro token member
    rcases List.mem_append.mp member with inside | final
    · exact Nat.le_of_lt (tiling.within token inside).2.1
    · obtain rfl := List.mem_singleton.mp final
      exact Nat.le_refl _
  · refine List.pairwise_append.mpr
      ⟨tiling.pairwise, List.pairwise_singleton .., ?_⟩
    intro token inside final member
    rw [List.mem_singleton.mp member]
    exact (tiling.within token inside).2.2

theorem Source.tokens_spelled {source : Source} {tokens : List Token}
    (scanned : source.tokens = .ok tokens) {tag : Tag} {span : Span}
    (read : ⟨.startTag tag, span⟩ ∈ tokens) :
    ∀ attr ∈ tag.attributes, attr.Spelled source.chars := by
  obtain ⟨body, last, rfl, tiling, _⟩ := source.tokens_tile scanned
  rcases List.mem_append.mp read with inside | final
  · exact (tiling.proper _ inside).spelled tag rfl
  · cases List.mem_singleton.mp final

end Stencil
