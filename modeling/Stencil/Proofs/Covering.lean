import Mathlib.Data.List.Chain
import Stencil.Proofs.Octets
import Stencil.Proofs.Readers
import Stencil.Proofs.Settled

namespace Stencil

open Text

/-! Reads follow one another to the end of the text. A text ends where markup
begins, so the tokens cover the source and no two texts are neighbours. -/

namespace Text

theorem isAlpha_toLower (char : Char) :
    char.toLower.isAlpha = char.isAlpha := by
  by_cases upper : char.isUpper
  · have before : char.isAlpha := Bool.or_eq_true_iff.mpr (.inl upper)
    rw [before]
    exact Bool.or_eq_true_iff.mpr (.inr (Token.isLower_toLower upper))
  · rw [Token.toLower_of_not_isUpper upper]

theorem beginsWithIgnoringCase_iff {pattern chars : List Char} :
    beginsWithIgnoringCase pattern chars ↔
      ∃ front rest, chars = front ++ rest ∧
        front.map Char.toLower = pattern.map Char.toLower := by
  rw [beginsWithIgnoringCase, beq_iff_eq]
  constructor
  · intro same
    exact ⟨_, _, (List.take_append_drop pattern.length chars).symm, same⟩
  · rintro ⟨front, rest, rfl, same⟩
    have size : front.length = pattern.length := by
      simpa using congrArg List.length same
    rw [← size, List.take_left, same]

end Text

namespace Token

theorem isNamePart_of_isAlpha {char : Char} (letter : char.isAlpha) :
    isNamePart char := by
  simp [isNamePart, Char.isAlphanum, letter]

theorem isNamePart_of_toLower {char other : Char}
    (same : char.toLower = other.toLower) (part : isNamePart other) :
    isNamePart char := by
  have letters : char.isAlpha = other.isAlpha := by
    rw [← isAlpha_toLower char, same, isAlpha_toLower]
  cases letter : other.isAlpha with
  | true => exact isNamePart_of_isAlpha (letters.trans letter)
  | false =>
      have plain : other.toLower.isLower = false := by
        have lowered := (isAlpha_toLower other).trans letter
        exact (Bool.or_eq_false_iff.mp lowered).2
      rw [eq_of_toLower same plain, ← eq_of_toLower rfl plain]
      exact part

structure IsTagName (name : List Char) : Prop where
  letter : ∃ first rest, name = first :: rest ∧ first.isAlpha
  parts : ∀ char ∈ name, isNamePart char

theorem isTagName_of_letter {letter : Char} {rest : List Char}
    (named : letter.isAlpha) :
    IsTagName ((letter :: rest).takeWhile isNamePart) := by
  refine ⟨⟨letter, rest.takeWhile isNamePart, ?_, named⟩, fun char member => ?_⟩
  · rw [List.takeWhile_cons, if_pos (isNamePart_of_isAlpha named)]
  · exact List.mem_takeWhile_imp member

theorem takeWhile_isNamePart_of_begins {name chars : List Char}
    (named : IsTagName name) (begins : beginsWithIgnoringCase name chars) :
    beginsWithIgnoringCase name (chars.takeWhile isNamePart) := by
  obtain ⟨front, rest, rfl, same⟩ := beginsWithIgnoringCase_iff.mp begins
  have parts : ∀ char ∈ front, isNamePart char := by
    intro char member
    have lowered : char.toLower ∈ name.map Char.toLower := by
      rw [← same]
      exact List.mem_map_of_mem member
    obtain ⟨other, inName, equal⟩ := List.mem_map.mp lowered
    exact isNamePart_of_toLower equal.symm (named.parts other inName)
  rw [List.takeWhile_append_of_pos parts]
  exact beginsWithIgnoringCase_iff.mpr ⟨front, _, rfl, same⟩

variable {cursor next : Cursor} {tokens : List Token}

theorem closing_cases {name chars : List Char}
    (closes : beginsWithIgnoringCase ('<' :: '/' :: name) chars) :
    ∃ rest, chars = '<' :: '/' :: rest ∧ beginsWithIgnoringCase name rest := by
  match chars with
  | [] => cases closes
  | [char] => simp [beginsWithIgnoringCase] at closes
  | bracket :: slash :: rest =>
      rw [beginsWithIgnoringCase_cons, beginsWithIgnoringCase_cons,
        Bool.and_eq_true, Bool.and_eq_true, beq_iff_eq, beq_iff_eq] at closes
      obtain ⟨first, second, begins⟩ := closes
      rw [eq_of_toLower first rfl, eq_of_toLower second rfl]
      exact ⟨rest, rfl, begins⟩

theorem exists_letter_of_closing {name chars : List Char}
    (named : IsTagName name)
    (closes : beginsWithIgnoringCase ('<' :: '/' :: name) chars) :
    ∃ letter rest, chars = '<' :: '/' :: letter :: rest ∧ letter.isAlpha := by
  obtain ⟨rest, rfl, begins⟩ := closing_cases closes
  obtain ⟨first, more, rfl, letter⟩ := named.letter
  cases rest with
  | nil => simp [beginsWithIgnoringCase] at begins
  | cons char rest =>
      rw [beginsWithIgnoringCase_cons, Bool.and_eq_true, beq_iff_eq] at begins
      rw [← isAlpha_toLower, ← begins.1, isAlpha_toLower] at letter
      exact ⟨char, rest, rfl, letter⟩

theorem readNext_closing {name : List Char} (named : IsTagName name)
    (closes : beginsWithIgnoringCase ('<' :: '/' :: name) cursor.rest)
    (read : readNext cursor = .ok (tokens, next)) :
    (∃ written span, tokens = [⟨.endTag written, span⟩] ∧
        beginsWithIgnoringCase name written.toList) ∧
      next.rest.length + name.length + 2 < cursor.rest.length := by
  obtain ⟨_, _, shape, letter⟩ := exists_letter_of_closing named closes
  rw [readNext_of_begins (.endTag shape letter)] at read
  obtain ⟨rest, opens, begins⟩ := closing_cases closes
  have inName := takeWhile_isNamePart_of_begins named begins
  have opened : (cursor.advance 2).rest = rest := by
    simp [Cursor.advance, opens]
  obtain ⟨behind, same⟩ := readEndTag_eq_ok.mp read
  obtain ⟨rfl, rfl⟩ := Prod.mk.inj same
  refine ⟨⟨_, _, rfl, by rwa [String.toList_ofList, opened]⟩, ?_⟩
  obtain ⟨front, _, split, same⟩ := beginsWithIgnoringCase_iff.mp inName
  have size : front.length = name.length := by
    simpa using congrArg List.length same
  have whole :=
    congrArg List.length
      (List.takeWhile_append_dropWhile (p := isNamePart) (l := rest))
  have shorter :=
    ((cursor.advance 2).skipWhile isNamePart).length_skipWhile_le fun char =>
      char != '>'
  have some := List.length_pos_iff.mpr behind
  simp only [Cursor.skipWhile, opened] at shorter some ⊢
  simp only [split, List.length_append, Cursor.length_advance, opens,
    List.length_cons] at *
  omega

/-- Texts among the tokens of a reading: one comes first where no markup begins,
one comes last where markup follows, and no two are neighbours. -/
structure TextEdges (cursor : Cursor) (tokens : List Token) (next : Cursor) :
    Prop where
  first : ∀ token ∈ tokens.head?, token.isText → ¬ beginsMarkup cursor.rest
  last : ∀ token ∈ tokens.getLast?,
    token.isText → next.rest = [] ∨ beginsMarkup next.rest
  apart : tokens.IsChain fun left right => ¬ (left.isText ∧ right.isText)

theorem textEdges_plain {token : Token} (plain : token.isText = false) :
    TextEdges cursor [token] next := by
  refine ⟨?_, ?_, .singleton _⟩ <;> simp [plain]

theorem readRawText_stop (name : List Char) (cursor : Cursor) :
    (readRawText name cursor).2 =
      cursor.skipUntil (beginsWithIgnoringCase ('<' :: '/' :: name)) := by
  unfold readRawText
  dsimp only
  split <;> rfl

theorem readRawText_tokens (name : List Char) (cursor : Cursor) :
    (readRawText name cursor).1 = [] ∨
      ∃ content, (readRawText name cursor).1 =
        [⟨.text content, ⟨cursor.offset,
          (readRawText name cursor).2.offset⟩⟩] := by
  unfold readRawText
  dsimp only
  split
  · exact .inl rfl
  · exact .inr ⟨_, rfl⟩

theorem readRawText_edge {name : List Char} (named : IsTagName name)
    (cursor : Cursor) :
    (readRawText name cursor).2.rest = [] ∨
    beginsMarkup (readRawText name cursor).2.rest := by
  rw [readRawText_stop]
  cases behind :
    (cursor.skipUntil (beginsWithIgnoringCase ('<' :: '/' :: name))).rest with
  | nil => exact .inl rfl
  | cons char rest =>
      obtain ⟨_, _, shape, letter⟩ := exists_letter_of_closing named
        (found_of_dropUntil behind)
      rw [shape]
      exact .inr letter

theorem readStartTag_textEdges {letter : Char} {rest : List Char}
    (begins : cursor.rest = '<' :: letter :: rest) (named : letter.isAlpha)
    (read : readStartTag cursor = .ok (tokens, next)) :
    TextEdges cursor tokens next := by
  obtain ⟨tag, stop, _, _, raw, rfl, behind⟩ := readStartTag_cases read
  rcases behind with ⟨_, rfl, _⟩ | ⟨_, rfl, rfl⟩
  · exact textEdges_plain rfl
  · have name : IsTagName ((cursor.advance 1).rest.takeWhile isNamePart) := by
      rw [show (cursor.advance 1).rest =
        letter :: rest by simp [Cursor.advance, begins]]
      exact isTagName_of_letter named
    have edge := readRawText_edge name stop
    refine ⟨by simp [isText], fun _ _ _ => edge, ?_⟩
    rcases readRawText_tokens ((cursor.advance 1).rest.takeWhile isNamePart)
      stop with
      none | ⟨content, only⟩
    · rw [none]
      exact .singleton _
    · rw [only]
      exact .cons_cons (by simp [isText]) (.singleton _)

theorem readText_textEdges (plain : ¬ beginsMarkup cursor.rest) :
    TextEdges cursor (readText cursor).1 (readText cursor).2 := by
  refine ⟨fun _ _ _ => plain, fun _ _ _ => ?_, .singleton _⟩
  cases behind : (readText cursor).2.rest with
  | nil => exact .inl rfl
  | cons char rest => exact .inr (found_of_dropUntil behind)

theorem readNext_cases (read : readNext cursor = .ok (tokens, next)) :
    (∃ letter rest, cursor.rest = '<' :: letter :: rest ∧ letter.isAlpha ∧
      readStartTag cursor = .ok (tokens, next)) ∨
    (∃ token, tokens = [token] ∧ token.isText = false ∧ ∀ tag,
      token.kind ≠ .startTag tag) ∨
    (¬ beginsMarkup cursor.rest ∧ tokens = (readText cursor).1 ∧
      next = (readText cursor).2) := by
  obtain ⟨reader, begins⟩ := exists_begins cursor.rest
  rw [readNext_of_begins begins] at read
  cases begins with
  | comment =>
      obtain ⟨rfl, _⟩ := Prod.mk.inj (readComment_eq_ok.mp read).2
      exact .inr (.inl ⟨_, rfl, rfl, by simp⟩)
  | doctype =>
      obtain ⟨rfl, _⟩ := Prod.mk.inj (readDoctype_eq_ok.mp read).2
      exact .inr (.inl ⟨_, rfl, rfl, by simp⟩)
  | endTag =>
      obtain ⟨rfl, _⟩ := Prod.mk.inj (readEndTag_eq_ok.mp read).2
      exact .inr (.inl ⟨_, rfl, rfl, by simp⟩)
  | startTag shape named => exact .inl ⟨_, _, shape, named, read⟩
  | text plain =>
      obtain ⟨rfl, rfl⟩ := Prod.mk.inj (Except.ok.inj read)
      exact .inr (.inr ⟨plain, rfl, rfl⟩)

theorem readNext_textEdges (read : readNext cursor = .ok (tokens, next)) :
    tokens ≠ [] ∧ TextEdges cursor tokens next := by
  rcases readNext_cases read with ⟨letter, rest, opens, named, read⟩ |
    ⟨token, rfl, plain, _⟩ |
    ⟨plain, rfl, rfl⟩
  · refine ⟨?_, readStartTag_textEdges opens named read⟩
    obtain ⟨_, _, _, _, _, rfl, _⟩ := readStartTag_cases read
    exact List.cons_ne_nil _ _
  · exact ⟨List.cons_ne_nil _ _, textEdges_plain plain⟩
  · exact ⟨List.cons_ne_nil _ _, readText_textEdges plain⟩

/-- Reads that follow one another from one cursor to another, and the tokens
they give. -/
inductive Scans : Cursor → List Token → Cursor → Prop
  | done (cursor : Cursor) : Scans cursor [] cursor
  | read {cursor middle next : Cursor} {first rest : List Token}
      (more : cursor.rest ≠ [])
      (here : readNext cursor = .ok (first, middle))
        (behind : Scans middle rest next) :
      Scans cursor (first ++ rest) next

theorem scanFrom_eq_ok : scanFrom cursor = .ok tokens ↔
    ∃ body last, Scans cursor body last ∧ last.rest = [] ∧
      tokens = body ++ [⟨.eof, ⟨last.offset, last.offset⟩⟩] := by
  constructor
  · intro scanned
    fun_induction scanFrom cursor generalizing tokens with
    | case1 cursor rest =>
        cases scanned
        exact ⟨[], cursor, .done cursor, rest, rfl⟩
    | case2 => cases scanned
    | case3 cursor char tail rest first next here induction =>
        obtain ⟨others, scanRest, rfl⟩ := Except.map_eq_ok.mp scanned
        obtain ⟨body, last, scans, done, rfl⟩ := induction scanRest
        have more : cursor.rest ≠ [] := by simp [rest]
        exact ⟨first ++ body, last, .read more here scans, done,
          (List.append_assoc ..).symm⟩
  · rintro ⟨body, last, scans, done, rfl⟩
    induction scans with
    | done cursor =>
        unfold scanFrom
        split
        · rfl
        · simp_all
    | @read cursor middle next first rest more here behind induction =>
        unfold scanFrom
        split
        · rename_i none
          exact absurd none more
        · split
          · rename_i failed
            rw [here] at failed
            cases failed
          · rename_i read
            rw [here] at read
            cases read
            rw [induction done, List.append_assoc]
            rfl

theorem Scans.tiling {chars : List Char} (scans : Scans cursor tokens next)
    (stands : cursor.Stands chars) : Tiling chars cursor tokens next := by
  induction scans with
  | done => exact rfl
  | read more here _ induction =>
      have tiles := readNext_tiles stands more here
      obtain ⟨_, reads⟩ := tiles.exists_reads
      exact tiles.append (induction (stands.reads reads))

theorem Scans.rest_ne_nil (scans : Scans cursor tokens next)
    (some : tokens ≠ []) :
    cursor.rest ≠ [] := by
  cases scans with
  | done => exact absurd rfl some
  | read more => exact more

theorem Scans.eq_of_nil (scans : Scans cursor [] next) : cursor = next := by
  generalize none : ([] : List Token) = tokens at scans
  cases scans with
  | done => rfl
  | read _ here _ =>
      have empty := (List.append_eq_nil_iff.mp none.symm).1
      exact absurd empty (readNext_textEdges here).1

theorem Scans.textEdges (scans : Scans cursor tokens next) :
    TextEdges cursor tokens next := by
  induction scans with
  | done => exact ⟨by simp, by simp, .nil⟩
  | @read cursor middle next first rest _ here behind induction =>
      obtain ⟨some, edges⟩ := readNext_textEdges here
      refine ⟨?_, ?_, List.isChain_append.mpr ⟨edges.apart, induction.apart,
        ?_⟩⟩
      · rw [List.head?_append_of_ne_nil _ some]
        exact edges.first
      · cases rest with
        | nil =>
            obtain rfl := behind.eq_of_nil
            simpa using edges.last
        | cons token others =>
            rw [List.getLast?_append_of_ne_nil _ (List.cons_ne_nil _ _)]
            exact induction.last
      · rintro left leftLast right rightFirst ⟨leftText, rightText⟩
        have onward : middle.rest ≠ [] := by
          apply behind.rest_ne_nil
          rintro rfl
          cases rightFirst
        exact induction.first right rightFirst rightText
          ((edges.last left leftLast leftText).resolve_left onward)

section Slices

variable {chars : List Char} {last : Token}

theorem Tiling.head_start (tiling : Tiling chars cursor tokens next)
    (final : last.span.start = next.offset) :
    ∀ token ∈ (tokens ++ [last]).head?, token.span.start = cursor.offset := by
  cases tokens with
  | nil =>
      cases tiling
      simp [final]
  | cons token rest =>
      obtain ⟨_, _, _, _, span, _⟩ := tiling
      simp [span]

theorem Tiling.contiguous (tiling : Tiling chars cursor tokens next)
    (final : last.span.start = next.offset) :
    (tokens ++ [last]).IsChain fun left right =>
      left.span.stop = right.span.start := by
  induction tokens generalizing cursor with
  | nil => exact .singleton _
  | cons token rest induction =>
      obtain ⟨_, middle, _, _, span, _, behind⟩ := tiling
      refine List.isChain_cons.mpr ⟨fun other head => ?_, induction behind⟩
      rw [span, behind.head_start final other head]

theorem Tiling.slices (tiling : Tiling chars cursor tokens next)
    (stands : cursor.Stands chars) :
    ∃ slices, List.Forall₂ (fun token slice =>
        slice? chars token.span.start token.span.stop =
          some slice) tokens slices ∧
      cursor.Reads slices.flatten next := by
  induction tokens generalizing cursor with
  | nil =>
      cases tiling
      exact ⟨[], .nil, .refl _⟩
  | cons token rest induction =>
      obtain ⟨taken, middle, _, reads, span, _, behind⟩ := tiling
      obtain ⟨slices, sliced, onward⟩ := induction behind (stands.reads reads)
      refine ⟨taken :: slices, .cons ?_ sliced, reads.trans onward⟩
      rw [span]
      exact stands.slice? reads

end Slices

end Token

theorem Source.tokens_eq_ok {source : Source} {tokens : List Token} :
    source.tokens = .ok tokens ↔
      ∃ body last, Token.Scans ⟨0, source.chars⟩ body last ∧ last.rest = [] ∧
        tokens = body ++ [⟨.eof, ⟨last.offset, last.offset⟩⟩] := by
  rw [Source.tokens, Except.mapError_eq_ok, Token.scan, Token.scanFrom_eq_ok]

/-- Tokens that cover a source: the mark of the end stands last, at the end of
the text, and takes nothing; every other token takes something. The first token
begins where the text begins and each one where the one before it ends, always
between characters, so together they spell the text. -/
structure Source.Covered (source : Source) (tokens : List Token) : Prop where
  ends : ∃ body, tokens = body ++ [⟨.eof, ⟨source.length, source.length⟩⟩] ∧
    ∀ token ∈ body, token.kind ≠ .eof ∧ token.span.start < token.span.stop
  start : ∀ token ∈ tokens.head?, token.span.start = 0
  contiguous : tokens.IsChain fun left right =>
    left.span.stop = right.span.start
  cuts : ∀ token ∈ tokens,
    IsCut source.chars token.span.start ∧ IsCut source.chars token.span.stop
  spelled : ∃ slices,
    List.Forall₂ (fun token slice => source.slice? token.span = some slice)
      tokens slices ∧
      slices.flatten = source.chars

/-- The tokens of a source cover it, and no two texts among them are
neighbours. -/
theorem Source.tokens_cover {source : Source} {tokens : List Token}
    (scanned : source.tokens = .ok tokens) :
    source.Covered tokens ∧ tokens.IsChain fun left right =>
      ¬ (left.isText ∧ right.isText) := by
  obtain ⟨body, last, scans, done, rfl⟩ := Source.tokens_eq_ok.mp scanned
  have stands := Cursor.stands_start source.chars
  have tiling := scans.tiling stands
  obtain ⟨slices, sliced, reads⟩ := tiling.slices stands
  have stop : last.offset = source.length :=
    (stands.reads reads).offset_eq_of_nil done
  have whole : slices.flatten = source.chars := by
    have rest := reads.1
    rw [done, List.append_nil] at rest
    exact rest.symm
  have ending : source.slice? ⟨last.offset, last.offset⟩ = some [] :=
    (stands.reads reads).slice? (.refl last)
  have all :
      List.Forall₂ (fun token slice => source.slice? token.span = some slice)
      (body ++ [⟨.eof, ⟨last.offset, last.offset⟩⟩]) (slices ++ [[]]) :=
    List.rel_append sliced (.cons ending .nil)
  constructor
  · refine ⟨⟨body, by rw [stop], fun token member => ?_⟩, tiling.head_start rfl,
      tiling.contiguous rfl, fun token member => ?_, ⟨slices ++ [[]], all, ?_⟩⟩
    · exact ⟨(tiling.proper token member).not_eof,
        (tiling.within token member).2.1⟩
    · obtain ⟨slice, _, here⟩ := all.exists_of_mem_left member
      exact isCut_of_slice? here
    · rw [List.flatten_append, whole]
      simp
  · refine List.isChain_append.mpr ⟨scans.textEdges.apart, .singleton _, ?_⟩
    intro left _ right final
    obtain rfl : right = _ := (Option.some.inj final).symm
    simp [Token.isText]

/-- Signs between attributes, brackets in text, an end tag inside raw text, and
one that only begins like that of the raw text. -/
theorem Source.tokens_cover_brackets :
    let source :=
      Source.ofText "<a = / \x00b>é < </1<!-- x --><STYLE>p</b </styles></a>"
    ∃ tokens, source.tokens = .ok tokens ∧
      tokens.map Token.span =
        [⟨0, 10⟩, ⟨10, 18⟩, ⟨18, 28⟩, ⟨28, 35⟩, ⟨35, 40⟩, ⟨40, 49⟩, ⟨49, 53⟩,
          ⟨53, 53⟩] ∧
      source.Covered tokens ∧ tokens.IsChain fun left right =>
        ¬ (left.isText ∧ right.isText) := by
  intro source
  have spans : source.tokens.map (fun tokens => tokens.map Token.span) =
      .ok [⟨0, 10⟩, ⟨10, 18⟩, ⟨18, 28⟩, ⟨28, 35⟩, ⟨35, 40⟩, ⟨40, 49⟩, ⟨49, 53⟩,
        ⟨53, 53⟩] := by
    decide +kernel
  obtain ⟨tokens, scanned, listed⟩ := Except.map_eq_ok.mp spans
  exact ⟨tokens, scanned, listed, Source.tokens_cover scanned⟩

end Stencil
