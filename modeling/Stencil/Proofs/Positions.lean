import Stencil.Proofs.Cut
import Stencil.Proofs.Flattening

namespace Stencil

open Text

/-! Where the characters of a flattened text stand in the file. A place of the
text is inside a line that was kept, or right behind one, and going on by a
character leads to a later place of the file. -/

namespace Position

def Before (first second : Position) : Prop :=
  first.line < second.line ∨
    first.line = second.line ∧ first.column < second.column

theorem Before.trans {first second third : Position}
    (ahead : first.Before second) (behind : second.Before third) :
    first.Before third := by
  unfold Before at *
  omega

def charIn? (texts : List (List Char)) : Position → Option Char
  | ⟨line + 1, column + 1⟩ => texts[line]?.bind fun chars => chars[column]?
  | _ => none

end Position

namespace Source

section Joining

def ending : Option Char → List Line → Option Char
  | last, [] => last
  | _, line :: rest => ending line.chars.getLast? rest

theorem ending_append (last : Option Char) (front : List Line) (line : Line) :
    ending last (front ++ [line]) = line.chars.getLast? := by
  induction front generalizing last with
  | nil => rfl
  | cons first rest induction => exact induction _

theorem join_append (offset : Nat) (last : Option Char)
    (front back : List Line) :
    join offset last (front ++ back) =
      let head := join offset last front
      let tail := join (offset + byteLength head.chars) (ending last front) back
      ⟨head.chars ++ tail.chars, head.lines ++ tail.lines⟩ := by
  induction front generalizing offset last with
  | nil => rfl
  | cons line rest induction =>
      rw [List.cons_append, join, induction]
      simp [join, ending, Nat.add_assoc]

theorem chars_join_eq (offset other : Nat) (last : Option Char)
    (texts : List Line) :
    (join offset last texts).chars = (join other last texts).chars := by
  induction texts generalizing offset other last with
  | nil => rfl
  | cons line rest induction =>
      rw [join, join]
      simp only [List.append_cancel_left_eq]
      exact induction _ _ _

theorem chars_join_next (last : Option Char) (line : Line) (rest : List Line) :
    (join 0 last (line :: rest)).chars = separator last line.chars ++
      (line.chars ++ (join 0 line.chars.getLast? rest).chars) := by
  rw [join]
  simp only [List.append_assoc, List.append_cancel_left_eq]
  exact chars_join_eq ..

theorem separator_cases (last : Option Char) (chars : List Char) :
    separator last chars = [] ∨ separator last chars = [' '] := by
  unfold separator
  split <;> simp

theorem start_le_of_mem_join {offset : Nat} {last : Option Char}
    {texts : List Line} {start : LineStart}
    (member : start ∈ (join offset last texts).lines) :
    start.offset ≤ offset + byteLength (join offset last texts).chars := by
  induction texts generalizing offset last with
  | nil => cases member
  | cons line rest induction =>
      rw [join] at member ⊢
      simp only [byteLength_append]
      rcases List.mem_cons.mp member with rfl | later
      · dsimp only
        omega
      · have := induction later
        omega

def lead (front : List Line) (line : Line) : List Char :=
  (join 0 none front).chars ++ separator (ending none front) line.chars

theorem join_at (front : List Line) (line : Line) (back : List Line) :
    join 0 none (front ++ line :: back) =
      let start := byteLength (lead front line)
      let tail := join (start + byteLength line.chars) line.chars.getLast? back
      ⟨lead front line ++ (line.chars ++ tail.chars),
        (join 0 none front).lines ++ ⟨start, line.position⟩ :: tail.lines⟩ := by
  rw [join_append]
  simp [join, lead]

theorem chars_join_at (front : List Line) (line : Line) (back : List Line) :
    (join 0 none (front ++ line :: back)).chars =
      lead front line ++ (line.chars ++
        (join 0 line.chars.getLast? back).chars) := by
  rw [join_at]
  simp only [List.append_cancel_left_eq]
  exact chars_join_eq ..

theorem lead_append (front : List Line) (line next : Line) :
    lead (front ++ [line]) next =
      lead front line ++ (line.chars ++
        separator line.chars.getLast? next.chars) := by
  rw [lead, join_at, ending_append]
  simp [join]

end Joining

theorem positionAt_eq {source : Source} {earlier later : List LineStart}
    {start : LineStart} {offset : Nat} {taken : List Char}
    (shape : source.lines = earlier ++ start :: later)
    (ahead : ∀ other ∈ earlier, other.offset ≤ start.offset)
    (behind : ∀ other ∈ later.head?, offset < other.offset)
    (slice : source.slice? ⟨start.offset, offset⟩ = some taken) :
    source.positionAt offset =
      ⟨start.position.line, start.position.column + taken.length⟩ := by
  obtain ⟨_, _, whole, size, stop⟩ := slice?_eq_some.mp slice
  have begun : start.offset ≤ offset := slice?_le slice
  have within : offset ≤ source.length := by
    rw [length, whole, byteLength_append, byteLength_append]
    dsimp only at size stop
    omega
  have stopped : later.takeWhile (fun line => line.offset ≤ offset) = [] := by
    cases later with
    | nil => rfl
    | cons next others =>
        apply List.takeWhile_cons_of_neg
        simpa using behind next rfl
  have latest :
      (source.lines.takeWhile fun line => line.offset ≤ offset).getLast? =
      some start := by
    rw [shape, List.takeWhile_append_of_pos, List.takeWhile_cons_of_pos,
      stopped]
    · simp
    · simpa using begun
    · intro other member
      simpa using Nat.le_trans (ahead other member) begun
  rw [positionAt, latest]
  simp only [Nat.min_eq_left within, slice]

/-- Lines as they are kept of a file: none is empty, and their numbers grow. -/
structure Ascending (texts : List Line) : Prop where
  filled : ∀ line ∈ texts, line.chars ≠ []
  numbers : texts.Pairwise fun line next => line.position.line <
    next.position.line

theorem Ascending.neighbours {front back : List Line} {line next : Line}
    (ascending : Ascending (front ++ line :: next :: back)) :
    line.position.line < next.position.line :=
  (List.pairwise_cons.mp (List.pairwise_append.mp ascending.numbers).2.1).1 next
    (List.mem_cons_self ..)

/-- A place of the text that some lines are joined to, and where it is in the
file. It lies in a line, or behind all of it where the next line does not begin
at once. -/
def Spot (texts : List Line) (before after : List Char) (position : Position) :
    Prop :=
  ∃ front line back taken rest,
    texts = front ++ line :: back ∧ line.chars = taken ++ rest ∧
    before = lead front line ++ taken ∧
    after = rest ++ (join 0 line.chars.getLast? back).chars ∧
    (rest = [] → ∀ next ∈ back.head?,
      separator line.chars.getLast? next.chars = [' ']) ∧
    position = ⟨line.position.line, line.position.column + taken.length⟩

namespace Spot

variable {texts : List Line} {before after : List Char} {position : Position}

theorem positionAt_eq (spot : Spot texts before after position) :
    (join 0 none texts).positionAt (byteLength before) = position := by
  obtain ⟨front, line, back, taken, rest, rfl, split, rfl, -, inside, rfl⟩ :=
    spot
  refine Source.positionAt_eq (congrArg Source.lines (join_at front line back))
    ?_ ?_ ?_
  · intro other member
    have := start_le_of_mem_join member
    simp only [lead, byteLength_append]
    omega
  · intro other head
    cases back with
    | nil => cases head
    | cons next others =>
        obtain rfl := Option.some.inj head
        have ends : byteLength taken < byteLength (line.chars ++
            separator line.chars.getLast? next.chars) := by
          rw [split, List.append_assoc, byteLength_append, ← split]
          apply Nat.lt_add_of_pos_right
          apply byteLength_pos
          intro none
          obtain ⟨rfl, empty⟩ := List.append_eq_nil_iff.mp none
          cases empty.symm.trans (inside rfl next rfl)
        simp only [byteLength_append] at ends ⊢
        omega
  · refine slice?_eq_some.mpr
      ⟨lead front line, rest ++ (join 0 line.chars.getLast? back).chars, ?_,
        rfl, ?_⟩
    · rw [chars_join_at, ← List.append_assoc taken, ← split]
    · rw [byteLength_append]

theorem atStart (front back : List Line) {line : Line}
    (some : line.chars ≠ []) :
    Spot (front ++ line :: back) (lead front line)
      (line.chars ++ (join 0 line.chars.getLast? back).chars) line.position :=
  ⟨front, line, back, [], line.chars, rfl, rfl, (List.append_nil _).symm, rfl,
    fun none => absurd none some, rfl⟩

theorem atNext (front back : List Line) (line : Line) {next : Line}
    (some : next.chars ≠ []) :
    Spot (front ++ line :: next :: back)
      (lead front line ++ (line.chars ++
        separator line.chars.getLast? next.chars))
      (next.chars ++ (join 0 next.chars.getLast? back).chars)
        next.position := by
  have spot := atStart (front ++ [line]) back some
  rwa [List.append_assoc, lead_append] at spot

theorem step {char : Char} (ascending : Ascending texts)
    (spot : Spot texts before (char :: after) position) :
    ∃ later, Spot texts (before ++ [char]) after later ∧
      position.Before later := by
  obtain ⟨front, line, back, taken, rest, rfl, split, rfl, onward, inside,
    rfl⟩ := spot
  cases rest with
  | nil =>
      cases back with
      | nil => cases onward
      | cons next others =>
          have spaced := inside rfl next rfl
          rw [chars_join_next, spaced] at onward
          obtain ⟨rfl, rfl⟩ := List.cons.inj onward
          have spot :=
            atNext front others line (ascending.filled next (by simp))
          rw [spaced, split, List.append_nil, ← List.append_assoc] at spot
          exact ⟨_, spot, .inl ascending.neighbours⟩
  | cons first more =>
      rw [List.cons_append] at onward
      obtain ⟨rfl, rfl⟩ := List.cons.inj onward
      by_cases within : more = [] → ∀ next ∈ back.head?,
          separator line.chars.getLast? next.chars = [' ']
      · refine ⟨_, ⟨front, line, back, taken ++ [char], more, rfl, ?_, ?_, rfl,
          within, rfl⟩,
          .inr ⟨rfl, ?_⟩⟩
        · rw [split, List.append_assoc, List.singleton_append]
        · rw [List.append_assoc]
        · simp
      · simp only [Classical.not_imp, not_forall] at within
        obtain ⟨rfl, next, head, unspaced⟩ := within
        obtain ⟨others, rfl⟩ := List.head?_eq_some_iff.mp head
        have touching := (separator_cases _ _).resolve_right unspaced
        have spot := atNext front others line (ascending.filled next (by simp))
        rw [touching, split, List.append_nil, ← List.append_assoc] at spot
        rw [List.nil_append, chars_join_next, touching]
        exact ⟨_, spot, .inl ascending.neighbours⟩

theorem run {middle : List Char} (ascending : Ascending texts)
    (spot : Spot texts before (middle ++ after) position) :
    ∃ later, Spot texts (before ++ middle) after later ∧
      (middle = [] ∧ later = position ∨ position.Before later) := by
  induction middle generalizing before position with
  | nil => exact ⟨position, by rwa [List.append_nil], .inl ⟨rfl, rfl⟩⟩
  | cons char rest induction =>
      obtain ⟨next, spot, ahead⟩ := spot.step ascending
      obtain ⟨later, spot, behind⟩ := induction spot
      rw [List.append_assoc, List.singleton_append] at spot
      refine ⟨later, spot, .inr ?_⟩
      rcases behind with ⟨_, rfl⟩ | behind
      · exact ahead
      · exact ahead.trans behind

end Spot

/-- Every place of the text is somewhere in the file. -/
theorem exists_spot {texts : List Line} {before after : List Char}
    (ascending : Ascending texts)
    (whole : (join 0 none texts).chars = before ++ after) (some : texts ≠ []) :
    ∃ position, Spot texts before after position := by
  obtain ⟨line, back, rfl⟩ := List.exists_cons_of_ne_nil some
  have start :=
    Spot.atStart [] back (ascending.filled line (List.mem_cons_self ..))
  rw [List.nil_append, show line.chars ++ _ = before ++ after from
    (chars_join_at [] line back).symm.trans whole] at start
  obtain ⟨position, spot, _⟩ := start.run ascending
  exact ⟨position, spot⟩

section Lines

variable {start : Nat} {texts : List (List Char)} {front back : List Line}
  {line : Line}

theorem Line.eq_of_keep? {number : Nat} {chars : List Char}
    (found : Line.keep? number chars = some line) :
    line = ⟨⟨number, (chars.takeWhile isBlank).length + 1⟩, trim chars⟩ := by
  unfold Line.keep? at found
  split at found
  · cases found
  · exact (Option.some.inj found).symm

theorem numbered_split (shape : numbered start texts = front ++ line :: back) :
    ∃ above whole below,
      texts = above ++ whole :: below ∧ numbered start above = front ∧
      Line.keep? (start + above.length) whole = some line ∧
      numbered (start + above.length + 1) below = back := by
  obtain ⟨first, second, zipped, ahead, behind⟩ :=
    List.filterMap_eq_append_iff.mp shape
  obtain ⟨dropped, entry, last, rfl, none, here, rfl⟩ :=
    List.filterMap_eq_cons_iff.mp behind
  rw [← List.append_assoc] at zipped
  obtain ⟨above, rest, rfl, upper, lower⟩ := List.zipIdx_eq_append_iff.mp zipped
  obtain ⟨whole, below, rfl, rfl, rfl⟩ := List.zipIdx_eq_cons_iff.mp lower.symm
  refine ⟨above, whole, below, rfl, ?_, here, rfl⟩
  rw [numbered, ← upper, List.filterMap_append, ahead,
    List.filterMap_eq_nil_iff.mpr none, List.append_nil]

theorem start_le_of_mem_numbered (member : line ∈ numbered start texts) :
    start ≤ line.position.line := by
  obtain ⟨front, back, shape⟩ := List.append_of_mem member
  obtain ⟨above, _, _, _, _, here, _⟩ := numbered_split shape
  rw [Line.eq_of_keep? here]
  exact Nat.le_add_right ..

theorem ascending_numbered (start : Nat) (texts : List (List Char)) :
    Ascending (numbered start texts) := by
  refine ⟨fun line => ne_nil_of_mem_numbered, ?_⟩
  induction texts generalizing start with
  | nil => exact .nil
  | cons first rest induction =>
      rw [numbered_cons]
      cases found : Line.keep? start first with
      | none => exact induction _
      | some line =>
          refine .cons (fun next member => ?_) (induction _)
          rw [Line.eq_of_keep? found]
          exact start_le_of_mem_numbered member

end Lines

/-- The space between the texts before and after was put there to separate two
lines of the file, and the place is right behind the last character of the upper
one that is not blank. -/
def Inserted (texts : List (List Char)) (before after : List Char)
    (position : Position) : Prop :=
  ∃ above written blanks below, texts = above ++ (written ++ blanks) :: below ∧
    (∀ char ∈ blanks, isBlank char) ∧
    (∃ char ∈ written.getLast?, ¬ isBlank char) ∧
    before = row (kept (above ++ [written ++ blanks])) ∧
    kept below ≠ [] ∧ after = row (kept below) ∧
    position = ⟨above.length + 1, written.length + 1⟩

theorem numbered_append (start : Nat) (above below : List (List Char)) :
    numbered start (above ++ below) =
      numbered start above ++ numbered (start + above.length) below := by
  rw [numbered, List.zipIdx_append, List.filterMap_append]
  rfl

section Origins

variable {texts : List (List Char)} {front back : List Line} {line next : Line}

theorem charIn?_of_kept {taken more : List Char} {char : Char}
    (shape : numbered 1 texts = front ++ line :: back)
    (split : line.chars = taken ++ char :: more) :
    Position.charIn? texts
      ⟨line.position.line, line.position.column + taken.length⟩ =
      some char := by
  obtain ⟨above, whole, below, rfl, _, here, _⟩ := numbered_split shape
  obtain rfl := Line.eq_of_keep? here
  obtain ⟨blanks, _, parts⟩ := exists_trim_append whole
  have spelled : whole = (whole.takeWhile isBlank ++ taken) ++ char ::
        (more ++ blanks) := by
    rw [show trim whole = _ from split] at parts
    simpa using parts
  have row : (above ++ whole :: below)[above.length]? = some whole := by simp
  have column : whole[(whole.takeWhile isBlank).length + taken.length]? =
      some char := by
    generalize whole.takeWhile isBlank = lead at spelled ⊢
    rw [spelled, ← List.length_append,
      List.getElem?_append_right (Nat.le_refl _), Nat.sub_self]
    rfl
  dsimp only
  rw [Nat.add_comm 1 above.length, Nat.add_right_comm, Position.charIn?, row]
  exact column

theorem inserted_of_kept
    (shape : numbered 1 texts = front ++ line :: next :: back) :
    Inserted texts (lead front line ++ line.chars)
      (next.chars ++ (join 0 next.chars.getLast? back).chars)
      ⟨line.position.line, line.position.column + line.chars.length⟩ := by
  have some : line.chars ≠ [] := ne_nil_of_mem_numbered (by rw [shape]; simp)
  obtain ⟨above, whole, below, rfl, ahead, here, behind⟩ := numbered_split shape
  have upper : numbered 1 (above ++ [whole]) = front ++ [line] := by
    rw [numbered_append, ahead, numbered_cons, here]
    rfl
  obtain rfl := Line.eq_of_keep? here
  obtain ⟨blanks, blank, parts⟩ := exists_trim_append whole
  have final := List.getLast?_eq_some_getLast some
  refine ⟨above, whole.takeWhile isBlank ++ trim whole, blanks, below, ?_,
    blank, ?_, ?_, ?_, ?_,
    ?_⟩
  · rw [List.append_assoc, ← parts]
  · exact ⟨_, by rwa [List.getLast?_append_of_ne_nil _ some], last_trim _ final⟩
  · rw [List.append_assoc, ← parts, ← chars_join_numbered 1, upper,
      chars_join_at]
    simp [join]
  · rw [← map_chars_numbered, behind]
    exact List.cons_ne_nil _ _
  · rw [← chars_join_numbered, behind, chars_join_next]
    rfl
  · simp only [List.length_append, Position.mk.injEq]
    omega

end Origins

theorem Spot.exact {texts : List (List Char)} {before after : List Char}
    {char : Char} {position : Position}
    (spot : Spot (numbered 1 texts) before (char :: after) position) :
    position.charIn? texts = some char ∨
    char = ' ' ∧ Inserted texts before after position := by
  obtain ⟨front, line, back, taken, rest, shape, split, rfl, onward, inside,
    rfl⟩ := spot
  cases rest with
  | nil =>
      cases back with
      | nil => cases onward
      | cons next others =>
          rw [chars_join_next, inside rfl next rfl] at onward
          obtain ⟨rfl, rfl⟩ := List.cons.inj onward
          rw [List.append_nil] at split
          rw [← split]
          exact .inr ⟨rfl, inserted_of_kept shape⟩
  | cons first more =>
      rw [List.cons_append] at onward
      obtain ⟨rfl, _⟩ := List.cons.inj onward
      exact .inl (charIn?_of_kept shape split)

/-- Positions are exact. The file has the characters of the flattened text where
they are said to be, only a space that was inserted is said to be behind the
line above it. What is later in the text is later in the file. -/
theorem positionAt_exact (raw : String) :
    (∀ offset, IsCut (ofText raw).chars offset → offset < (ofText raw).length →
      ∃ before char after, (ofText raw).chars = before ++ char :: after ∧
        byteLength before = offset ∧
        (((ofText raw).positionAt offset).charIn? (Text.lines raw.toList) =
          some char ∨
          char = ' ' ∧ Inserted (Text.lines raw.toList) before after
            ((ofText raw).positionAt offset))) ∧
      ∀ offset later, IsCut (ofText raw).chars offset →
        IsCut (ofText raw).chars later →
        offset < later →
          ((ofText raw).positionAt offset).Before
            ((ofText raw).positionAt later) := by
  have ascending := ascending_numbered 1 (Text.lines raw.toList)
  have spots : ∀ before after,
      (ofText raw).chars = before ++ after → (ofText raw).chars ≠ [] →
      ∃ position, Spot (numbered 1 (Text.lines raw.toList)) before after
        position := by
    intro before after whole some
    refine exists_spot ascending whole fun none => some ?_
    rw [ofText, show keptLines raw = [] from none]
    rfl
  constructor
  · rintro offset ⟨before, after, whole, rfl⟩ within
    cases after with
    | nil =>
        rw [length, whole, List.append_nil] at within
        exact absurd within (Nat.lt_irrefl _)
    | cons char after =>
        obtain ⟨position, spot⟩ := spots before (char :: after) whole
          (by simp [whole])
        refine ⟨before, char, after, whole, rfl, ?_⟩
        rw [show (ofText raw).positionAt _ = position from spot.positionAt_eq]
        exact spot.exact
  · rintro _ _ ⟨before, after, whole, rfl⟩ ⟨before', after', whole', rfl⟩
      ordered
    obtain ⟨middle, rfl⟩ :=
      prefix_of_byteLength_le (whole.symm.trans whole') (Nat.le_of_lt ordered)
    rw [List.append_assoc] at whole'
    have some : middle ≠ [] := by
      rintro rfl
      rw [List.append_nil] at ordered
      exact Nat.lt_irrefl _ ordered
    obtain ⟨position, spot⟩ := spots before (middle ++ after') whole'
      (by simp [whole', some])
    obtain ⟨later, onward, ahead⟩ := spot.run ascending
    rw [show (ofText raw).positionAt _ = position from spot.positionAt_eq,
      show (ofText raw).positionAt _ = later from onward.positionAt_eq]
    exact ahead.resolve_left fun same => some same.1

/-- Behind a wide character, between wide blanks and over a line that is
dropped: the space stands where the upper line ends, and the next character on
the third line. -/
theorem positionAt_exact_words :
    let raw := "\u3000é \r\n \u2003\n\tx y"
    let source := ofText raw
    source.text = "é x y" ∧ source.positionAt 2 = ⟨1, 3⟩ ∧
      source.positionAt 3 = ⟨3, 2⟩ ∧
      (∃ before char after,
        source.chars = before ++ char :: after ∧ byteLength before = 2 ∧
        ((source.positionAt 2).charIn? (Text.lines raw.toList) = some char ∨
          char = ' ' ∧ Inserted (Text.lines raw.toList) before after
            (source.positionAt 2))) ∧
      (source.positionAt 2).Before (source.positionAt 3) := by
  intro raw source
  have space : IsCut source.chars 2 :=
    ⟨['é'], " x y".toList, by decide +kernel, rfl⟩
  have word : IsCut source.chars 3 :=
    ⟨"é ".toList, "x y".toList, by decide +kernel, rfl⟩
  have exact_ := positionAt_exact raw
  exact ⟨by decide +kernel, by decide +kernel, by decide +kernel,
    exact_.1 2 space (by decide +kernel), exact_.2 2 3 space word (by decide)⟩

end Source

end Stencil
