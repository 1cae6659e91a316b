import Mathlib.Data.List.TakeWhile
import Stencil.Proofs.Flattening
import Stencil.Proofs.Markers

namespace Stencil

open Text

/-! What markers look like, and that they are read where they stand: a text
begins with a complete marker, or with one that is broken, or with none. -/

namespace Text

theorem until_eq {found : List Char → Bool} {passed rest : List Char}
    (nowhere : ∀ char more,
      char :: more <:+ passed → found (char :: more ++ rest) = false)
    (here : rest = [] ∨ found rest) :
    takeUntil found (passed ++ rest) = passed ∧
    dropUntil found (passed ++ rest) = rest := by
  induction passed with
  | nil =>
      rcases here with rfl | here
      · exact ⟨rfl, rfl⟩
      · cases rest with
        | nil => exact ⟨rfl, rfl⟩
        | cons char more => simp [takeUntil, dropUntil, here]
  | cons first others induction =>
      have missed := nowhere first others (List.suffix_refl _)
      obtain ⟨taken, dropped⟩ := induction fun char more ending =>
        nowhere char more (ending.trans (List.suffix_cons ..))
      rw [List.cons_append] at missed ⊢
      simp [takeUntil, dropUntil, missed, taken, dropped]

end Text

theorem Cursor.advance_append (offset : Nat) (left right : List Char) :
    Cursor.advance ⟨offset, left ++ right⟩ left.length =
      ⟨offset + byteLength left, right⟩ := by
  rw [advance, List.take_left, List.drop_left]

namespace Interpolation

/-- Braces that stand behind the content are the first that could close it. -/
def Closed (content : List Char) : Prop :=
  ¬ closer <:+: content ++ ['}']

theorem missed_of_closed {content : List Char} (closed : Closed content)
    (after : List Char) :
    ∀ char more, char :: more <:+ content →
      beginsWith closer (char :: more ++ (closer ++ after)) = false := by
  intro char more ending
  apply eq_false_of_ne_true
  intro begins
  apply closed
  have short : closer <+: char :: more ++ ['}'] := by
    refine List.prefix_of_prefix_length_le
      (List.isPrefixOf_iff_prefix.mp begins) ?_
      (by simp [closer])
    exact ⟨'}' :: after, by simp [closer]⟩
  obtain ⟨before, rfl⟩ := ending
  obtain ⟨behind, shape⟩ := short
  exact ⟨before, behind, by rw [List.append_assoc, shape, List.append_assoc]⟩

theorem missed_of_open {inside : List Char} (unclosed : ¬ closer <:+: inside) :
    ∀ char more, char :: more <:+ inside →
      beginsWith closer (char :: more ++ []) = false := by
  intro char more ending
  apply eq_false_of_ne_true
  intro begins
  rw [List.append_nil] at begins
  exact unclosed ((List.isPrefixOf_iff_prefix.mp begins).isInfix.trans
    ending.isInfix)

theorem read_closed {content : List Char} (closed : Closed content)
    (after : List Char) (location : Location) (offset : Nat) :
    read location ⟨offset, opener ++ (content ++ (closer ++ after))⟩ =
      let stop := offset + byteLength (opener ++ content ++ closer)
      if trim content = [] then .error ⟨.emptyInterpolation, ⟨offset, stop⟩⟩
      else
        .ok (⟨String.ofList (trim content),
          String.ofList (opener ++ content ++ closer),
        ⟨offset, stop⟩, location⟩, ⟨stop, after⟩) := by
  have found : beginsWith closer (closer ++ after) :=
    List.isPrefixOf_iff_prefix.mpr (List.prefix_append ..)
  obtain ⟨taken, dropped⟩ := until_eq (missed_of_closed closed after)
    (.inr found)
  have behind : Cursor.advance ⟨offset + byteLength opener + byteLength content,
        closer ++ after⟩
      closer.length = ⟨offset + byteLength (opener ++ content ++ closer),
        after⟩ := by
    rw [Cursor.advance_append]
    simp [Nat.add_assoc]
  simp only [read, Cursor.advance_append, Cursor.skipUntil, taken, dropped,
    behind]
  cases trim content <;> rfl

theorem read_open {inside : List Char} (unclosed : ¬ closer <:+: inside)
    (location : Location) (offset : Nat) :
    read location ⟨offset, opener ++ inside⟩ =
      .error ⟨.unclosedInterpolation,
        ⟨offset, offset + byteLength (opener ++ inside)⟩⟩ := by
  obtain ⟨taken, dropped⟩ := until_eq (missed_of_open unclosed) (.inl rfl)
  rw [List.append_nil] at taken dropped
  simp only [read, Cursor.advance_append, Cursor.skipUntil, taken, dropped,
    byteLength_append, Nat.add_assoc]

theorem exists_closed {inside : List Char} (present : closer <:+: inside) :
    ∃ content after, Closed content ∧ inside = content ++
      (closer ++ after) := by
  induction inside with
  | nil => exact absurd (List.infix_nil.mp present) (by decide)
  | cons char rest induction =>
      by_cases here : closer <+: char :: rest
      · obtain ⟨after, shape⟩ := here
        exact ⟨[], after, fun short => absurd short.length_le (by decide),
          shape.symm⟩
      · have later := (List.infix_cons_iff.mp present).resolve_left here
        obtain ⟨content, after, closed, rfl⟩ := induction later
        refine ⟨char :: content, after, fun inside => ?_, rfl⟩
        rcases List.infix_cons_iff.mp inside with first | inside
        · exact here (first.trans ⟨'}' :: after, by simp [closer]⟩)
        · exact closed inside

end Interpolation

namespace Rune

theorem quotedIdentifier?_eq_some {argument name : List Char} :
    quotedIdentifier? argument = some name ↔
      ∃ mark, (mark = '"' ∨ mark = '\'') ∧ argument = mark :: (name ++ [mark]) ∧
        spellsIdentifier name := by
  cases argument with
  | nil => simp [quotedIdentifier?]
  | cons mark rest =>
      rw [quotedIdentifier?, Option.ite_none_right_eq_some]
      simp only [Bool.and_eq_true, Bool.or_eq_true, beq_iff_eq,
        Option.some.injEq]
      constructor
      · rintro ⟨⟨⟨quote, last⟩, spelled⟩, rfl⟩
        exact ⟨mark, quote, by
            rw [List.dropLast_append_getLast? mark last], spelled⟩
      · rintro ⟨other, quote, same, spelled⟩
        obtain ⟨rfl, rfl⟩ := List.cons.inj same
        simp [quote, spelled]

namespace Kind

/-- The value that an argument spells: an identifier between equal quotation
marks where the kind declares it, otherwise a path. -/
def Spells (kind : Kind) (argument value : List Char) : Prop :=
  match kind with
  | .prop | .slot =>
      ∃ mark, (mark = '"' ∨ mark = '\'') ∧ argument = mark ::
        (value ++ [mark]) ∧
      spellsIdentifier value
  | .val | .pipe => argument = value ∧ spellsPath value

def Accepts (kind : Kind) (location : Location) (argument : List Char) : Prop :=
  (∃ value, kind.Spells argument value) ∧ (kind = .slot → location = .text)

theorem value?_eq_some {kind : Kind} {argument value : List Char} :
    kind.value? argument = some value ↔ kind.Spells argument value := by
  have path : (if spellsPath argument then some argument else none) =
      some value ↔
      argument = value ∧ spellsPath value := by
    rw [Option.ite_none_right_eq_some, Option.some.injEq]
    constructor
    · rintro ⟨spelled, rfl⟩
      exact ⟨rfl, spelled⟩
    · rintro ⟨rfl, spelled⟩
      exact ⟨spelled, rfl⟩
  cases kind with
  | prop => exact quotedIdentifier?_eq_some
  | slot => exact quotedIdentifier?_eq_some
  | val => exact path
  | pipe => exact path

theorem mem_all (kind : Kind) : kind ∈ all := by
  cases kind <;> decide

theorem opener_inj {kind other : Kind} (same : kind.opener <+: other.opener) :
    kind = other := by
  revert same
  cases kind <;> cases other <;> decide

end Kind

theorem opened?_eq_some {chars : List Char} {kind : Kind} :
    opened? chars = some kind ↔ kind.opener <+: chars := by
  constructor
  · intro opened
    have begins := List.find?_some opened
    exact List.isPrefixOf_iff_prefix.mp begins
  · intro begins
    have present : (opened? chars).isSome :=
      List.find?_isSome.mpr
        ⟨kind, kind.mem_all, List.isPrefixOf_iff_prefix.mpr begins⟩
    obtain ⟨other, opened⟩ := Option.isSome_iff_exists.mp present
    have found := List.find?_some opened
    rw [opened]
    rcases List.prefix_or_prefix_of_prefix (List.isPrefixOf_iff_prefix.mp found)
      begins with
      same | same
    · rw [Kind.opener_inj same]
    · rw [Kind.opener_inj same]

section Reading

variable {argument inside : List Char}

theorem passes_of_not_mem (open_ : ')' ∉ inside) :
    ∀ char ∈ inside, (char != ')') = true := by
  intro char member
  rw [bne_iff_ne]
  rintro rfl
  exact open_ member

theorem read?_closed (kind : Kind) (closed : ')' ∉ argument) (after : List Char)
    (location : Location) (offset : Nat) :
    read? location ⟨offset, kind.opener ++ (argument ++ ')' :: after)⟩ =
      let raw := kind.opener ++ argument ++ [')']
      let span : Span := ⟨offset, offset + byteLength raw⟩
      (kind.value? argument).elim (.error ⟨.badArgument kind, span⟩)
        fun value =>
          if kind = .slot ∧ location = .tag then .error ⟨.slotInsideTag, span⟩
          else
            .ok (some
              (⟨kind, String.ofList value, String.ofList raw, span, location⟩,
                ⟨span.stop, after⟩)) := by
  have opened : opened? (kind.opener ++ (argument ++ ')' :: after)) =
      some kind :=
    opened?_eq_some.mpr (List.prefix_append ..)
  have passes := passes_of_not_mem closed
  have taken : (argument ++ ')' :: after).takeWhile (fun char => char != ')') =
      argument := by
    rw [List.takeWhile_append_of_pos passes]
    simp
  have dropped : (argument ++ ')' :: after).dropWhile
      (fun char => char != ')') = ')' :: after := by
    rw [List.dropWhile_append_of_pos passes]
    simp
  have behind :
      Cursor.advance ⟨offset + byteLength kind.opener + byteLength argument,
      ')' :: after⟩ 1 = ⟨offset + byteLength (kind.opener ++ argument ++ [')']),
      after⟩ := by
    simp [Cursor.advance, Nat.add_assoc]
  simp only [read?, opened, Cursor.advance_append, Cursor.skipWhile, taken,
    dropped, behind]
  cases kind.value? argument <;> rfl

theorem read?_open (kind : Kind) (unclosed : ')' ∉ inside) (location : Location)
    (offset : Nat) :
    read? location ⟨offset, kind.opener ++ inside⟩ =
      .error ⟨.unclosedRune kind,
        ⟨offset, offset + byteLength (kind.opener ++ inside)⟩⟩ := by
  have opened : opened? (kind.opener ++ inside) = some kind :=
    opened?_eq_some.mpr (List.prefix_append ..)
  have passes := passes_of_not_mem unclosed
  have taken : inside.takeWhile (fun char => char != ')') = inside :=
    List.takeWhile_eq_self_iff.mpr passes
  have dropped : inside.dropWhile (fun char => char != ')') = [] :=
    List.dropWhile_eq_nil_iff.mpr passes
  simp only [read?, opened, Cursor.advance_append, Cursor.skipWhile, taken,
    dropped, byteLength_append, Nat.add_assoc]

end Reading

end Rune

namespace Marker

def openers : List (List Char) :=
  Interpolation.opener :: Rune.Kind.all.map Rune.Kind.opener

theorem opener_ne_nil {opener : List Char} (listed : opener ∈ openers) :
    opener ≠ [] := by
  rintro rfl
  revert listed
  decide

/-- The text of a marker that can stand at the location. -/
inductive Complete (location : Location) : List Char → Prop
  | interpolation {content : List Char} (closed : Interpolation.Closed content)
      (filled : ∃ char ∈ content, ¬ isBlank char) :
      Complete location (Interpolation.opener ++ content ++
        Interpolation.closer)
  | rune {kind : Rune.Kind} {argument : List Char} (closed : ')' ∉ argument)
      (accepted : kind.Accepts location argument) :
      Complete location (kind.opener ++ argument ++ [')'])

/-- A text whose beginning opens a marker that is not closed in it, or whose
content is not one for its kind and location. -/
inductive Broken (location : Location) : List Char → Prop
  | openInterpolation {inside : List Char}
  (unclosed : ¬ Interpolation.closer <:+: inside) :
      Broken location (Interpolation.opener ++ inside)
  | blankInterpolation {content after : List Char}
      (closed : Interpolation.Closed content)
      (blank : ∀ char ∈ content, isBlank char) :
      Broken location (Interpolation.opener ++ content ++
        Interpolation.closer ++ after)
  | openRune {kind : Rune.Kind} {inside : List Char} (unclosed : ')' ∉ inside) :
      Broken location (kind.opener ++ inside)
  | refusedRune {kind : Rune.Kind} {argument after : List Char}
      (closed : ')' ∉ argument)
      (refused : ¬ kind.Accepts location argument) :
      Broken location (kind.opener ++ argument ++ [')'] ++ after)

variable {location : Location}

/-- Where an opener stands, the marker is complete or broken. -/
theorem complete_or_broken (location : Location) {chars opener : List Char}
    (listed : opener ∈ openers) (begins : opener <+: chars) :
    (∃ raw after, Complete location raw ∧ chars = raw ++ after) ∨
    Broken location chars := by
  obtain ⟨inside, rfl⟩ := begins
  rcases List.mem_cons.mp listed with rfl | rune
  · by_cases present : Interpolation.closer <:+: inside
    · obtain ⟨content, after, closed, rfl⟩ :=
        Interpolation.exists_closed present
      rw [← List.append_assoc, ← List.append_assoc]
      by_cases filled : ∃ char ∈ content, ¬ isBlank char
      · exact .inl ⟨_, after, .interpolation closed filled, rfl⟩
      · simp only [not_exists, not_and, Classical.not_not] at filled
        exact .inr (.blankInterpolation closed filled)
    · exact .inr (.openInterpolation present)
  · obtain ⟨kind, _, rfl⟩ := List.mem_map.mp rune
    by_cases present : ')' ∈ inside
    · obtain ⟨argument, after, rfl, closed⟩ :=
        List.eq_append_cons_of_mem present
      rw [← List.singleton_append, ← List.append_assoc, ← List.append_assoc]
      by_cases accepted : kind.Accepts location argument
      · exact .inl ⟨_, after, .rune closed accepted, rfl⟩
      · exact .inr (.refusedRune closed accepted)
    · exact .inr (.openRune present)

section Reading

variable {offset : Nat} {chars : List Char}

theorem read?_brace (rest : List Char) :
    read? location ⟨offset, Interpolation.opener ++ rest⟩ =
      (Interpolation.read location ⟨offset, Interpolation.opener ++ rest⟩).map
        fun found => some (.interpolation found.1, found.2) :=
  rfl

theorem read?_dollar (kind : Rune.Kind) (rest : List Char) :
    read? location ⟨offset, kind.opener ++ rest⟩ =
      (Rune.read? location ⟨offset, kind.opener ++ rest⟩).map fun found =>
        found.map fun result => (.rune result.1, result.2) :=
  rfl

theorem read?_plain {cursor : Cursor}
    (plain : ∀ opener ∈ openers, ¬ opener <+: cursor.rest) :
    read? location cursor = .ok none := by
  have unbraced : ¬ beginsWith Interpolation.opener cursor.rest = true :=
      fun begins =>
        plain _ (List.mem_cons_self ..) (List.isPrefixOf_iff_prefix.mp begins)
  have unopened : Rune.opened? cursor.rest = none := by
    rw [Option.eq_none_iff_forall_ne_some]
    intro kind opened
    exact plain _ (List.mem_cons_of_mem _ (List.mem_map_of_mem kind.mem_all))
      (Rune.opened?_eq_some.mp opened)
  rw [read?, if_neg unbraced, Rune.read?, unopened]
  rfl

theorem Complete.read? {raw : List Char} (complete : Complete location raw)
    (after : List Char) (offset : Nat) :
    ∃ marker, Marker.read? location ⟨offset, raw ++ after⟩ =
      .ok (some (marker, ⟨offset + byteLength raw, after⟩)) := by
  cases complete with
  | interpolation closed filled =>
      obtain ⟨char, member, ink⟩ := filled
      rw [List.append_assoc, List.append_assoc, read?_brace,
        Interpolation.read_closed closed, if_neg fun none =>
          ink (trim_eq_nil_iff.mp none char member)]
      exact ⟨_, rfl⟩
  | rune closed accepted =>
      obtain ⟨⟨value, spells⟩, allowed⟩ := accepted
      rw [List.append_assoc, List.append_assoc, List.singleton_append,
        read?_dollar, Rune.read?_closed _ closed,
        Rune.Kind.value?_eq_some.mpr spells, Option.elim_some, if_neg]
      · exact ⟨_, rfl⟩
      · rintro ⟨rfl, rfl⟩
        cases allowed rfl

theorem Broken.read? (broken : Broken location chars) (offset : Nat) :
    ∃ failure, Marker.read? location ⟨offset, chars⟩ = .error failure := by
  cases broken with
  | openInterpolation unclosed =>
      rw [read?_brace, Interpolation.read_open unclosed]
      exact ⟨_, rfl⟩
  | blankInterpolation closed blank =>
      rw [List.append_assoc, List.append_assoc, read?_brace,
        Interpolation.read_closed closed, if_pos (trim_eq_nil_iff.mpr blank)]
      exact ⟨_, rfl⟩
  | openRune unclosed =>
      rw [read?_dollar, Rune.read?_open _ unclosed]
      exact ⟨_, rfl⟩
  | @refusedRune kind argument after closed refused =>
      rw [List.append_assoc, List.append_assoc, List.singleton_append,
        read?_dollar, Rune.read?_closed _ closed]
      cases found : kind.value? argument with
      | none => exact ⟨_, rfl⟩
      | some value =>
          have misplaced : kind = .slot ∧ location = .tag := by
            by_contra placed
            refine refused ⟨⟨value, Rune.Kind.value?_eq_some.mp found⟩,
              fun slot => ?_⟩
            cases location with
            | text => rfl
            | tag => exact absurd ⟨slot, rfl⟩ placed
          rw [Option.elim_some, if_pos misplaced]
          exact ⟨_, rfl⟩

end Reading

theorem read?_cases (location : Location) (cursor : Cursor) :
    ((∀ opener ∈ openers, ¬ opener <+: cursor.rest) ∧
      read? location cursor = .ok none) ∨
      (∃ raw after marker, Complete location raw ∧ cursor.rest = raw ++ after ∧
        read? location cursor =
          .ok (some (marker, ⟨cursor.offset + byteLength raw, after⟩))) ∨
      (Broken location cursor.rest ∧ ∃ failure,
        read? location cursor = .error failure) := by
  by_cases plain : ∀ opener ∈ openers, ¬ opener <+: cursor.rest
  · exact .inl ⟨plain, read?_plain plain⟩
  · right
    simp only [not_forall, Classical.not_not] at plain
    obtain ⟨opener, listed, begins⟩ := plain
    obtain ⟨offset, chars⟩ := cursor
    rcases complete_or_broken location listed
      begins with ⟨raw, after, complete, rfl⟩ | broken
    · obtain ⟨marker, read⟩ := complete.read? after offset
      exact .inl ⟨raw, after, marker, complete, rfl, read⟩
    · exact .inr ⟨broken, broken.read? offset⟩

theorem not_begins_of_none {location : Location} {cursor : Cursor}
    (read : read? location cursor = .ok none) :
    ∀ opener ∈ openers, ¬ opener <+: cursor.rest := by
  rcases read?_cases location cursor with ⟨plain, _⟩ | ⟨_, _, _, _, _, found⟩ |
    ⟨_, _, failed⟩
  · exact plain
  · cases found.symm.trans read
  · cases failed.symm.trans read

end Marker

end Stencil
