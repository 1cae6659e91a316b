import Stencil.Proofs.Checked.Markers
import Stencil.Proofs.Grammar
import Stencil.Proofs.Splits

namespace Stencil

open Text

/-! The text of a rune read from left to right, and that reading accepts exactly
such texts. -/

namespace Text

inductive Identifier : List Char → Prop
  | intro {first : Char} {others : List Char}
  (begins : first.isAlpha ∨ first = '_')
      (follow : ∀ char ∈ others, char.isAlphanum ∨ char = '_') :
        Identifier (first :: others)

inductive Dotted : List Char → Prop
  | last {name : List Char} (named : Identifier name) : Dotted name
  | more {name path : List Char} (named : Identifier name)
      (behind : Dotted path) :
      Dotted (name ++ '.' :: path)

theorem spellsIdentifier_iff {chars : List Char} :
    spellsIdentifier chars ↔ Identifier chars := by
  cases chars with
  | nil =>
      constructor
      · intro spelled
        cases spelled
      · rintro ⟨⟩
  | cons first others =>
      simp only [spellsIdentifier, isIdentifierStart, isIdentifierPart,
        Bool.and_eq_true, Bool.or_eq_true, beq_iff_eq, List.all_eq_true]
      constructor
      · rintro ⟨begins, follow⟩
        exact .intro begins follow
      · rintro ⟨begins, follow⟩
        exact ⟨begins, follow⟩

theorem Identifier.not_mem {chars : List Char} (identifier : Identifier chars)
    {char : Char} (other : isIdentifierPart char = false) : char ∉ chars := by
  obtain ⟨begins, follow⟩ := identifier
  have refused : ¬ (char.isAlphanum ∨ char = '_') := by
    simpa [isIdentifierPart, not_or] using other
  rw [List.mem_cons, not_or]
  constructor
  · rintro rfl
    exact refused (begins.imp_left fun letter => Bool.or_eq_true_iff.mpr
      (.inl letter))
  · exact fun member => refused (follow char member)

theorem spellsPath_iff {chars : List Char} :
    spellsPath chars ↔ Dotted chars := by
  constructor
  · intro spelled
    induction size : chars.length using Nat.strongRecOn generalizing chars with
    | ind count induction =>
        unfold spellsPath at spelled
        by_cases dotted : '.' ∈ chars
        · obtain ⟨name, path, rfl, undotted⟩ :=
            List.eq_append_cons_of_mem dotted
          rw [split_append_cons undotted, List.all_cons, Bool.and_eq_true]
            at spelled
          refine .more (spellsIdentifier_iff.mp spelled.1)
            (induction path.length ?_ spelled.2 rfl)
          rw [← size, List.length_append, List.length_cons]
          omega
        · rw [split_of_not_mem dotted] at spelled
          exact .last (spellsIdentifier_iff.mp (by simpa using spelled))
  · intro dotted
    induction dotted with
    | last named =>
        rw [spellsPath, split_of_not_mem (named.not_mem (by decide))]
        simpa using spellsIdentifier_iff.mpr named
    | more named _ induction =>
        rw [spellsPath, split_append_cons (named.not_mem (by decide)),
          List.all_cons, Bool.and_eq_true]
        exact ⟨spellsIdentifier_iff.mpr named, induction⟩

theorem Dotted.not_mem {chars : List Char} (dotted : Dotted chars) {char : Char}
    (other : isIdentifierPart char = false) (dot : char ≠ '.') :
    char ∉ chars := by
  induction dotted with
  | last named => exact named.not_mem other
  | more named _ induction =>
      simp only [List.mem_append, List.mem_cons, not_or]
      exact ⟨named.not_mem other, dot, induction⟩

end Text

namespace Rune

section Grammar

/-- The texts of runes of a kind that can stand at the location, with their
values. What declares a name has it in quotation marks, and a slot stands in
text; any other rune has a path. -/
inductive Written (location : Location) : Kind → List Char → List Char → Prop
  | quoted {kind : Kind} {mark : Char} {name : List Char}
      (declares : kind = .prop ∨ kind = .slot ∧ location = .text)
      (quote : mark = '"' ∨ mark = '\'') (named : Identifier name) :
      Written location kind (kind.opener ++ mark :: name ++ [mark, ')']) name
  | bare {kind : Kind} {path : List Char} (uses : kind = .val ∨ kind = .pipe)
      (dotted : Dotted path) :
        Written location kind (kind.opener ++ path ++ [')']) path

variable {location : Location} {kind : Kind} {raw value argument : List Char}

theorem Written.exists_argument (written : Written location kind raw value) :
    ∃ argument, raw = kind.opener ++ argument ++ [')'] ∧ ')' ∉ argument ∧
      kind.Spells argument value ∧ (kind = .slot → location = .text) := by
  cases written with
  | @quoted mark _ declares quote named =>
      refine ⟨mark :: (value ++ [mark]), by simp, ?_, ?_, ?_⟩
      · have outside : ')' ∉ value := named.not_mem (by decide)
        rcases quote with rfl | rfl <;> simp [outside]
      · rcases declares with rfl | ⟨rfl, _⟩ <;>
          exact ⟨mark, quote, rfl, spellsIdentifier_iff.mpr named⟩
      · rintro rfl
        simpa using declares
  | bare uses dotted =>
      refine ⟨value, rfl, dotted.not_mem (by decide) (by decide), ?_, ?_⟩
      · rcases uses with rfl | rfl <;> exact ⟨rfl, spellsPath_iff.mpr dotted⟩
      · rintro rfl
        simp at uses

theorem written_of_spells (spells : kind.Spells argument value)
    (placed : kind = .slot → location = .text) :
    Written location kind (kind.opener ++ argument ++ [')']) value := by
  have quoted : ∀ mark, (mark = '"' ∨ mark = '\'') → argument = mark ::
        (value ++ [mark]) →
      spellsIdentifier value →
      (kind = .prop ∨ kind = .slot ∧ location = .text) →
      Written location kind (kind.opener ++ argument ++ [')']) value := by
    rintro mark quote rfl spelled declares
    have written :=
      Written.quoted declares quote (spellsIdentifier_iff.mp spelled)
    simpa using written
  cases kind with
  | prop =>
      obtain ⟨mark, quote, same, spelled⟩ := spells
      exact quoted mark quote same spelled (.inl rfl)
  | slot =>
      obtain ⟨mark, quote, same, spelled⟩ := spells
      exact quoted mark quote same spelled (.inr ⟨rfl, placed rfl⟩)
  | val =>
      obtain ⟨rfl, spelled⟩ := spells
      exact .bare (.inl rfl) (spellsPath_iff.mp spelled)
  | pipe =>
      obtain ⟨rfl, spelled⟩ := spells
      exact .bare (.inr rfl) (spellsPath_iff.mp spelled)

end Grammar

section Reading

variable {location : Location} {kind : Kind} {raw value : List Char}

theorem Written.read?_eq (written : Written location kind raw value)
    (after : List Char) (offset : Nat) :
    read? location ⟨offset, raw ++ after⟩ =
      let span : Span := ⟨offset, offset + byteLength raw⟩
      .ok (some (⟨kind, String.ofList value, String.ofList raw, span, location⟩,
        ⟨span.stop, after⟩)) := by
  obtain ⟨argument, rfl, closed, spells, placed⟩ := written.exists_argument
  have allowed : ¬ (kind = .slot ∧ location = .tag) := by
    rintro ⟨slot, rfl⟩
    cases placed slot
  rw [List.append_assoc, List.append_assoc, List.singleton_append,
    read?_closed kind closed, Kind.value?_eq_some.mpr spells, Option.elim_some,
    if_neg allowed]

def Concerns (problem : Marker.Problem) : Prop :=
  (TemplateError.Cause.marker problem).kind = .invalidRune

/-- No rune opens at the beginning of a text, or one is written there, or
reading fails. -/
theorem read?_cases (location : Location) (offset : Nat) (text : List Char) :
    ((∀ kind : Kind, ¬ kind.opener <+: text) ∧
      read? location ⟨offset, text⟩ = .ok none) ∨
      (∃ kind raw value after,
        text = raw ++ after ∧ Written location kind raw value) ∨
      ((∃ kind : Kind, kind.opener <+: text) ∧ ∃ failure,
        read? location ⟨offset, text⟩ = .error failure ∧
        Concerns failure.problem) := by
  by_cases opened : ∃ kind : Kind, kind.opener <+: text
  · right
    obtain ⟨kind, begins⟩ := opened
    obtain ⟨inside, rfl⟩ := id begins
    by_cases closes : ')' ∈ inside
    · obtain ⟨argument, after, rfl, closed⟩ := List.eq_append_cons_of_mem closes
      have read := read?_closed kind closed after location offset
      cases found : kind.value? argument with
      | none =>
          rw [found] at read
          exact .inr ⟨⟨kind, begins⟩, _, read, rfl⟩
      | some value =>
          rw [found, Option.elim_some] at read
          by_cases misplaced : kind = .slot ∧ location = .tag
          · rw [if_pos misplaced] at read
            exact .inr ⟨⟨kind, begins⟩, _, read, rfl⟩
          · have placed : kind = .slot → location = .text := by
              intro slot
              cases location with
              | text => rfl
              | tag => exact absurd ⟨slot, rfl⟩ misplaced
            refine .inl ⟨kind, kind.opener ++ argument ++ [')'], value, after,
              by simp, ?_⟩
            exact written_of_spells (Kind.value?_eq_some.mp found) placed
    · exact .inr ⟨⟨kind, begins⟩, _, read?_open kind closes location offset,
        rfl⟩
  · rw [not_exists] at opened
    refine .inl ⟨opened, ?_⟩
    have unopened : opened? text = none :=
      Option.eq_none_iff_forall_ne_some.mpr fun kind found =>
        opened kind (opened?_eq_some.mp found)
    rw [read?, unopened]

theorem read?_eq_none_iff {offset : Nat} {text : List Char} :
    read? location ⟨offset, text⟩ = .ok none ↔ ∀ kind : Kind,
    ¬ kind.opener <+: text := by
  rcases read?_cases location offset text with
    ⟨unopened, read⟩ | ⟨kind, raw, value, after, rfl, written⟩ |
      ⟨opened, failure, read, _⟩
  · exact ⟨fun _ => unopened, fun _ => read⟩
  · obtain ⟨argument, rfl, _⟩ := written.exists_argument
    rw [written.read?_eq after offset]
    simp only [Except.ok.injEq, reduceCtorEq, false_iff, not_forall,
      Classical.not_not]
    exact ⟨kind, by simp⟩
  · obtain ⟨kind, begins⟩ := opened
    rw [read]
    simp only [reduceCtorEq, false_iff, not_forall, Classical.not_not]
    exact ⟨kind, begins⟩

theorem read?_eq_some_iff {offset : Nat} {text : List Char} {rune : Rune}
    {next : Cursor} :
    read? location ⟨offset, text⟩ = .ok (some (rune, next)) ↔
      ∃ kind raw value, text = raw ++ next.rest ∧
        Written location kind raw value ∧
        rune = ⟨kind, String.ofList value, String.ofList raw,
          ⟨offset, offset + byteLength raw⟩, location⟩ ∧
        next.offset = offset + byteLength raw := by
  constructor
  · intro read
    rcases read?_cases location offset text with
      ⟨_, found⟩ | ⟨kind, raw, value, after, rfl, written⟩ |
        ⟨_, failure, found, _⟩
    · cases read.symm.trans found
    · cases read.symm.trans (written.read?_eq after offset)
      exact ⟨kind, raw, value, rfl, written, rfl, rfl⟩
    · cases read.symm.trans found
  · obtain ⟨stop, rest⟩ := next
    rintro ⟨kind, raw, value, rfl, written, rfl, rfl⟩
    exact written.read?_eq rest offset

theorem read?_eq_error_iff {offset : Nat} {text : List Char} :
    (∃ failure, read? location ⟨offset, text⟩ = .error failure) ↔
      (∃ kind : Kind, kind.opener <+: text) ∧
        ∀ kind raw value, Written location kind raw value → ¬ raw <+: text := by
  constructor
  · rintro ⟨failure, failed⟩
    refine ⟨?_, ?_⟩
    · by_contra unopened
      cases failed.symm.trans (read?_eq_none_iff.mpr (not_exists.mp unopened))
    · rintro kind raw value written ⟨after, rfl⟩
      cases failed.symm.trans (written.read?_eq after offset)
  · rintro ⟨⟨kind, begins⟩, unwritten⟩
    rcases read?_cases location offset text with
      ⟨unopened, _⟩ | ⟨kind, raw, value, after, rfl, written⟩ |
        ⟨_, failure, read, _⟩
    · exact absurd begins (unopened kind)
    · exact absurd (List.prefix_append ..) (unwritten kind raw value written)
    · exact ⟨failure, read⟩

theorem concerns_of_read?_error {offset : Nat} {text : List Char}
    {failure : Marker.Failure}
    (failed : read? location ⟨offset, text⟩ = .error failure) :
    Concerns failure.problem := by
  rcases read?_cases location offset text with
    ⟨_, read⟩ | ⟨kind, raw, value, after, rfl, written⟩ |
      ⟨_, other, read, concerns⟩
  · cases failed.symm.trans read
  · cases failed.symm.trans (written.read?_eq after offset)
  · obtain rfl := Except.error.inj (failed.symm.trans read)
    exact concerns

end Reading

/-- Where a dollar sign stands, reading up to a limit finds no rune exactly
where none opens before it, and finds one exactly where its text is written
there: then the rune has that text, its span and its value. In every other case
reading fails for a broken rune. Reading the bytes, with the longest word of
small letters for the kind and the first parenthesis for the end, comes to the
same. -/
theorem read?_accepts_written {source : Source} {start limit : Nat}
    {text : List Char} (sliced : source.slice? ⟨start, limit⟩ = some text)
    (dollar : text.head? = some '$') (location : Location) :
    (read? location ⟨start, text⟩ = .ok none ↔ ∀ kind : Kind,
      ¬ kind.opener <+: text) ∧
    (∀ rune next, read? location ⟨start, text⟩ = .ok (some (rune, next)) ↔
      ∃ kind raw value, text = raw ++ next.rest ∧
        Written location kind raw value ∧
        rune = ⟨kind, String.ofList value, String.ofList raw,
          ⟨start, start + byteLength raw⟩, location⟩ ∧
        next.offset = start + byteLength raw ∧
        source.slice? rune.span = some raw) ∧
    ((∃ failure, read? location ⟨start, text⟩ = .error failure) ↔
      (∃ kind : Kind, kind.opener <+: text) ∧
        ∀ kind raw value, Written location kind raw value → ¬ raw <+: text) ∧
    (∀ failure, read? location ⟨start, text⟩ = .error failure →
      (source.error failure.span (.marker failure.problem)).cause.kind =
        .invalidRune) ∧
    Checked.readRune source.chars start limit location =
      .settled ((read? location ⟨start, text⟩).map fun found =>
        found.map Prod.fst) := by
  refine ⟨read?_eq_none_iff, ?_, read?_eq_error_iff,
    fun _ => concerns_of_read?_error, ?_⟩
  · intro rune next
    rw [read?_eq_some_iff]
    constructor
    · rintro ⟨kind, raw, value, rfl, written, rfl, stop⟩
      exact ⟨kind, raw, value, rfl, written, rfl, stop, (slice?_split sliced).1⟩
    · rintro ⟨kind, raw, value, shape, written, same, stop, _⟩
      exact ⟨kind, raw, value, shape, written, same, stop⟩
  · obtain ⟨behind, rfl⟩ := List.head?_eq_some_iff.mp dollar
    exact Checked.readRune_eq sliced location

/-- A rune behind a wide character, with a parenthesis behind its own. In a tag
nothing is written there, and neither is it in text before a limit that is too
near. -/
theorem read?_accepts_written_slot :
    let source := Source.ofText "é$slot('y'))"
    let text := "$slot('y'))".toList
    let short := "$slot('y'".toList
    source.slice? ⟨2, 13⟩ = some text ∧ source.slice? ⟨2, 11⟩ = some short ∧
      read? .text ⟨2, text⟩ =
        .ok (some (⟨.slot, "y", "$slot('y')", ⟨2, 12⟩, .text⟩, ⟨12, [')']⟩)) ∧
      (∀ kind raw value, Written .tag kind raw value → ¬ raw <+: text) ∧
      ∀ kind raw value, Written .text kind raw value → ¬ raw <+: short := by
  intro source text short
  have sliced : source.slice? ⟨2, 13⟩ = some text := by decide +kernel
  have nearer : source.slice? ⟨2, 11⟩ = some short := by decide +kernel
  have named : Identifier ['y'] := spellsIdentifier_iff.mp (by decide)
  have written : Written .text .slot "$slot('y')".toList ['y'] :=
    .quoted (.inr ⟨rfl, rfl⟩) (.inr rfl) named
  have inTag : read? .tag ⟨2, text⟩ = .error ⟨.slotInsideTag, ⟨2, 12⟩⟩ := by rfl
  have inText : read? .text ⟨2, short⟩ =
    .error ⟨.unclosedRune .slot, ⟨2, 11⟩⟩ := by rfl
  refine ⟨sliced, nearer, ?_, ?_, ?_⟩
  · refine ((read?_accepts_written sliced rfl .text).2.1 _ _).mpr ?_
    exact ⟨.slot, "$slot('y')".toList, ['y'], rfl, written, rfl, rfl,
      by decide +kernel⟩
  · exact ((read?_accepts_written sliced rfl .tag).2.2.1.mp ⟨_, inTag⟩).2
  · exact ((read?_accepts_written nearer rfl .text).2.2.1.mp ⟨_, inText⟩).2

end Rune

end Stencil
