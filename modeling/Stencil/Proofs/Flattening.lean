import Mathlib.Data.List.Basic
import Stencil.Source

namespace Stencil

/-! A flattened text holds the same characters as the file, blanks apart, and is
as flat as a text can be. Its lines stand in a row, with a space between two of
them where words would meet. -/

namespace Text

variable {chars : List Char}

section Lines

theorem not_mem_of_mem_lines {line : List Char} (member : line ∈ lines chars) :
    '\n' ∉ line := by
  fun_induction lines chars generalizing line with
  | case1 => cases member
  | case2 rest induction | case3 rest induction =>
      rcases List.mem_cons.mp member with rfl | later
      · exact List.not_mem_nil
      · exact induction later
  | case4 char rest plain _ none induction =>
      obtain rfl := List.mem_singleton.mp member
      exact fun inside => plain (List.mem_singleton.mp inside).symm
  | case5 char rest plain _ first more split induction =>
      rw [split] at induction
      rcases List.mem_cons.mp member with rfl | later
      · intro inside
        rcases List.mem_cons.mp inside with here | inside
        · exact plain here.symm
        · exact induction (List.mem_cons_self ..) inside
      · exact induction (List.mem_cons_of_mem _ later)

theorem lines_eq_singleton (some : chars ≠ []) (whole : '\n' ∉ chars) :
    lines chars = [chars] := by
  fun_induction lines chars with
  | case1 => exact absurd rfl some
  | case2 rest => exact absurd (List.mem_cons_self ..) whole
  | case3 rest =>
      exact absurd (List.mem_cons_of_mem _ (List.mem_cons_self ..)) whole
  | case4 char rest _ _ none induction =>
      cases rest with
      | nil => rfl
      | cons second others =>
          have one := induction (List.cons_ne_nil _ _)
            (List.not_mem_of_not_mem_cons whole)
          cases none.symm.trans one
  | case5 char rest _ _ line more split induction =>
      cases rest with
      | nil => cases split
      | cons second others =>
          have one := induction (List.cons_ne_nil _ _)
            (List.not_mem_of_not_mem_cons whole)
          obtain ⟨rfl, rfl⟩ := List.cons.inj (split.symm.trans one)
          rfl

end Lines

section Trimming

theorem trimEnd_append (chars : List Char) :
    trimEnd chars ++ (chars.reverse.takeWhile isBlank).reverse = chars := by
  rw [trimEnd, ← List.reverse_append, List.takeWhile_append_dropWhile,
    List.reverse_reverse]

theorem trimEnd_prefix_of (chars : List Char) : trimEnd chars <+: chars :=
  ⟨_, trimEnd_append chars⟩

theorem exists_trim_append (chars : List Char) :
    ∃ behind, (∀ char ∈ behind, isBlank char) ∧
      chars = chars.takeWhile isBlank ++ (trim chars ++ behind) := by
  refine ⟨((trimStart chars).reverse.takeWhile isBlank).reverse, ?_, ?_⟩
  · intro char member
    exact List.all_eq_true.mp List.all_takeWhile char
      (List.mem_reverse.mp member)
  · rw [trim, trimEnd_append, trimStart, List.takeWhile_append_dropWhile]

theorem trim_sublist (chars : List Char) : (trim chars).Sublist chars :=
  (trimEnd_prefix_of _).sublist.trans (List.dropWhile_sublist isBlank)

theorem head_trim : ∀ char ∈ (trim chars).head?, ¬ isBlank char := by
  intro char head
  have stopped := List.head?_dropWhile_not isBlank chars
  obtain ⟨behind, whole⟩ := trimEnd_prefix_of (trimStart chars)
  have here : (chars.dropWhile isBlank).head? = some char := by
    rw [← trimStart, ← whole,
      List.head?_append_of_ne_nil _ (by rintro none; simp_all [trim])]
    exact head
  rw [here] at stopped
  simpa using stopped

theorem last_trim : ∀ char ∈ (trim chars).getLast?, ¬ isBlank char := by
  intro char last
  have stopped := List.head?_dropWhile_not isBlank (trimStart chars).reverse
  rw [trim, trimEnd, List.getLast?_reverse] at last
  rw [Option.mem_def.mp last] at stopped
  simpa using stopped

theorem trim_eq_nil_iff : trim chars = [] ↔ ∀ char ∈ chars, isBlank char := by
  constructor
  · intro none char member
    obtain ⟨behind, blank, whole⟩ := exists_trim_append chars
    rw [whole, none, List.nil_append] at member
    rcases List.mem_append.mp member with ahead | behind
    · exact List.all_eq_true.mp List.all_takeWhile char ahead
    · exact blank char behind
  · intro blank
    cases left : trim chars with
    | nil => rfl
    | cons char rest =>
        have first : char ∈ (trim chars).head? := by simp [left]
        have inside : char ∈ chars :=
          (trim_sublist chars).subset (List.mem_of_mem_head? first)
        exact absurd (blank char inside) (head_trim char first)

theorem trim_eq_self (first : ∀ char ∈ chars.head?, ¬ isBlank char)
    (last : ∀ char ∈ chars.getLast?, ¬ isBlank char) : trim chars = chars := by
  have kept : ∀ {chars : List Char}, (∀ char ∈ chars.head?, ¬ isBlank char) →
      chars.dropWhile isBlank = chars := by
    intro chars first
    cases chars with
    | nil => rfl
    | cons char rest => exact List.dropWhile_cons_of_neg (first char rfl)
  rw [trim, trimStart, kept first, trimEnd, kept, List.reverse_reverse]
  rwa [List.head?_reverse]

end Trimming

section Ink

def inked (chars : List Char) : List Char :=
  chars.filter fun char => !isBlank char

@[simp] theorem inked_append (left right : List Char) :
    inked (left ++ right) = inked left ++ inked right :=
  List.filter_append ..

theorem inked_eq_nil (blank : ∀ char ∈ chars, isBlank char) :
    inked chars = [] := by
  rw [inked, List.filter_eq_nil_iff]
  intro char member
  simp [blank char member]

theorem inked_cons (char : Char) (rest : List Char) :
    inked (char :: rest) = inked [char] ++ inked rest :=
  inked_append [char] rest

theorem inked_cons_of_blank {char : Char} (blank : isBlank char)
    (rest : List Char) :
    inked (char :: rest) = inked rest := by
  simp [inked, blank]

theorem inked_trim (chars : List Char) : inked (trim chars) = inked chars := by
  obtain ⟨behind, blank, whole⟩ := exists_trim_append chars
  have leading : inked (chars.takeWhile isBlank) = [] :=
    inked_eq_nil (List.all_eq_true.mp List.all_takeWhile)
  rw [whole, inked_append, inked_append, ← whole, leading, inked_eq_nil blank]
  simp

theorem inked_lines (chars : List Char) :
    (lines chars).flatMap inked = inked chars := by
  fun_induction lines chars with
  | case1 => rfl
  | case2 rest induction =>
      rw [List.flatMap_cons, induction]
      exact (inked_cons_of_blank rfl rest).symm
  | case3 rest induction =>
      rw [List.flatMap_cons, induction]
      exact ((inked_cons_of_blank rfl _).trans
        (inked_cons_of_blank rfl rest)).symm
  | case4 char rest _ _ none induction =>
      rw [none] at induction
      have behind : inked rest = [] := induction.symm
      rw [inked_cons, behind]
      rfl
  | case5 char rest _ _ line more split induction =>
      rw [split, List.flatMap_cons] at induction
      rw [List.flatMap_cons, inked_cons char line, inked_cons char rest,
        ← induction, List.append_assoc]

end Ink

section Rows

def kept (lines : List (List Char)) : List (List Char) :=
  (lines.map trim).filter fun line => !line.isEmpty

/-- What stands between a line and the next one: nothing at the edge of a tag,
otherwise a space. -/
def gap (line next : List Char) : List Char :=
  if line.getLast? = some '>' ∨ next.head? = some '<' then [] else [' ']

def row : List (List Char) → List Char
  | [] => []
  | [line] => line
  | line :: next :: rest => line ++ gap line next ++ row (next :: rest)

theorem ne_nil_of_mem_kept {texts : List (List Char)} {line : List Char}
    (member : line ∈ kept texts) : line ≠ [] := by
  have filled := (List.mem_filter.mp member).2
  rintro rfl
  cases filled

theorem exists_of_mem_kept {texts : List (List Char)} {line : List Char}
    (member : line ∈ kept texts) : ∃ whole ∈ texts, trim whole = line :=
  List.mem_map.mp (List.mem_filter.mp member).1

theorem mem_gap {line next : List Char} {char : Char}
    (member : char ∈ gap line next) :
    char = ' ' := by
  unfold gap at member
  split at member
  · cases member
  · exact List.mem_singleton.mp member

theorem mem_row {texts : List (List Char)} {char : Char}
    (member : char ∈ row texts) :
    (∃ line ∈ texts, char ∈ line) ∨ char = ' ' := by
  fun_induction row texts with
  | case1 => cases member
  | case2 line => exact .inl ⟨line, List.mem_cons_self .., member⟩
  | case3 line next rest induction =>
      rcases List.mem_append.mp member with ahead | behind
      · rcases List.mem_append.mp ahead with here | between
        · exact .inl ⟨line, List.mem_cons_self .., here⟩
        · exact .inr (mem_gap between)
      · rcases induction behind with ⟨other, listed, found⟩ | space
        · exact .inl ⟨other, List.mem_cons_of_mem _ listed, found⟩
        · exact .inr space

theorem inked_gap (line next : List Char) : inked (gap line next) = [] := by
  unfold gap
  split <;> rfl

theorem row_append (front back : List (List Char)) (line next : List Char) :
    row (front ++ line :: next :: back) =
      row (front ++ [line]) ++ gap line next ++ row (next :: back) := by
  induction front with
  | nil => rfl
  | cons first rest induction =>
      cases rest with
      | nil => simp [row]
      | cons second others =>
          simp only [List.cons_append] at induction ⊢
          rw [row, row, induction]
          simp

theorem inked_row (texts : List (List Char)) :
    inked (row texts) = texts.flatMap inked := by
  fun_induction row texts with
  | case1 => rfl
  | case2 line => simp
  | case3 line next rest induction =>
      rw [inked_append, inked_append, inked_gap, List.append_nil, induction]
      rfl

theorem inked_kept (texts : List (List Char)) :
    (kept texts).flatMap inked = texts.flatMap inked := by
  induction texts with
  | nil => rfl
  | cons line rest induction =>
      rw [List.flatMap_cons, ← inked_trim line, ← induction, kept,
        List.map_cons]
      cases trimmed : trim line with
      | nil => rfl
      | cons char more => rfl

theorem exists_head_row {texts : List (List Char)}
    (filled : ∀ line ∈ texts, line ≠ []) :
    ∀ char ∈ (row texts).head?, ∃ line ∈ texts, char ∈ line.head? := by
  intro char head
  cases texts with
  | nil => cases head
  | cons line rest =>
      have some := filled line (List.mem_cons_self ..)
      refine ⟨line, List.mem_cons_self .., ?_⟩
      cases rest with
      | nil => exact head
      | cons next others =>
          rw [row, List.append_assoc, List.head?_append_of_ne_nil _ some]
            at head
          exact head

theorem row_ne_nil {texts : List (List Char)}
    (filled : ∀ line ∈ texts, line ≠ []) (some : texts ≠ []) :
    row texts ≠ [] := by
  cases texts with
  | nil => exact absurd rfl some
  | cons line rest =>
      have first := filled line (List.mem_cons_self ..)
      cases rest with
      | nil => exact first
      | cons next others => simp [row, first]

theorem exists_last_row {texts : List (List Char)}
    (filled : ∀ line ∈ texts, line ≠ []) :
    ∀ char ∈ (row texts).getLast?, ∃ line ∈ texts, char ∈ line.getLast? := by
  induction texts with
  | nil => nofun
  | cons line rest induction =>
      intro char last
      have later : ∀ other ∈ rest, other ≠ [] :=
        fun other member => filled other (List.mem_cons_of_mem _ member)
      cases rest with
      | nil => exact ⟨line, List.mem_cons_self .., last⟩
      | cons next others =>
          rw [row, List.getLast?_append_of_ne_nil _ (row_ne_nil later
            (List.cons_ne_nil _ _))]
            at last
          obtain ⟨other, member, found⟩ := induction later char last
          exact ⟨other, List.mem_cons_of_mem _ member, found⟩

end Rows

/-- A text on one line, with no blanks around it. -/
structure Flat (chars : List Char) : Prop where
  oneLine : '\n' ∉ chars
  first : ∀ char ∈ chars.head?, ¬ isBlank char
  last : ∀ char ∈ chars.getLast?, ¬ isBlank char

end Text

namespace Source

open Text

def numbered (start : Nat) (texts : List (List Char)) : List Line :=
  (texts.zipIdx start).filterMap fun entry => Line.keep? entry.2 entry.1

theorem numbered_cons (start : Nat) (chars : List Char)
    (rest : List (List Char)) :
    numbered start (chars :: rest) =
      (Line.keep? start chars).toList ++ numbered (start + 1) rest := by
  rw [numbered, List.zipIdx_cons, List.filterMap_cons]
  cases Line.keep? start chars <;> rfl

theorem map_chars_numbered (start : Nat) (texts : List (List Char)) :
    (numbered start texts).map Line.chars = kept texts := by
  induction texts generalizing start with
  | nil => rfl
  | cons chars rest induction =>
      rw [numbered_cons, List.map_append, induction, kept, kept, List.map_cons,
        Line.keep?]
      cases trim chars <;> rfl

theorem separator_eq_gap {line : List Char} (some : line ≠ [])
    (next : List Char) :
    separator line.getLast? next = gap line next := by
  cases last : line.getLast? with
  | none => exact absurd (List.getLast?_eq_none_iff.mp last) some
  | some char =>
      rw [gap, last]
      by_cases closing : char = '>'
      · rw [closing, if_pos (.inl rfl)]
        rfl
      · cases next with
        | nil => simp [separator, closing]
        | cons first rest =>
            by_cases opening : first = '<'
            · simp [separator, closing, opening]
            · simp [separator, closing, opening]

theorem chars_join_cons {line : Line} {rest : List Line}
    (filled : ∀ other ∈ line :: rest, other.chars ≠ []) (offset : Nat)
    (last : Option Char) :
    (join offset last (line :: rest)).chars =
      separator last line.chars ++ row ((line :: rest).map Line.chars) := by
  induction rest generalizing line offset last with
  | nil => simp [join, row]
  | cons next others induction =>
      have first := filled line (List.mem_cons_self ..)
      have later : ∀ other ∈ next :: others, other.chars ≠ [] :=
        fun other member => filled other (List.mem_cons_of_mem _ member)
      rw [join, induction later, separator_eq_gap first]
      simp [row]

theorem chars_join {texts : List Line}
    (filled : ∀ line ∈ texts, line.chars ≠ []) (offset : Nat) :
    (join offset none texts).chars = row (texts.map Line.chars) := by
  cases texts with
  | nil => rfl
  | cons line rest => exact chars_join_cons filled offset none

theorem ne_nil_of_mem_numbered {start : Nat} {texts : List (List Char)}
    {line : Line} (member : line ∈ numbered start texts) : line.chars ≠ [] := by
  apply ne_nil_of_mem_kept
  rw [← map_chars_numbered start texts]
  exact List.mem_map_of_mem member

theorem chars_join_numbered (start : Nat) (texts : List (List Char)) :
    (join 0 none (numbered start texts)).chars = row (kept texts) := by
  rw [chars_join fun line => ne_nil_of_mem_numbered, map_chars_numbered]

/-- A flattened text is the lines that are kept of the file, in a row. -/
theorem chars_ofText (raw : String) :
    (ofText raw).chars = row (kept (Text.lines raw.toList)) :=
  chars_join_numbered 1 _

theorem inked_ofText (raw : String) :
    inked (ofText raw).chars = inked raw.toList := by
  rw [chars_ofText, inked_row, inked_kept, inked_lines]

theorem flat_ofText (raw : String) : Flat (ofText raw).chars := by
  rw [chars_ofText]
  have filled : ∀ line ∈ kept (Text.lines raw.toList), line ≠ [] := fun line =>
    ne_nil_of_mem_kept
  refine ⟨fun inside => ?_, fun char head => ?_, fun char last => ?_⟩
  · rcases mem_row inside with ⟨line, member, here⟩ | space
    · obtain ⟨whole, listed, rfl⟩ := exists_of_mem_kept member
      exact not_mem_of_mem_lines listed ((trim_sublist whole).subset here)
    · cases space
  · obtain ⟨line, member, here⟩ := exists_head_row filled char head
    obtain ⟨whole, _, rfl⟩ := exists_of_mem_kept member
    exact head_trim char here
  · obtain ⟨line, member, here⟩ := exists_last_row filled char last
    obtain ⟨whole, _, rfl⟩ := exists_of_mem_kept member
    exact last_trim char here

/-- A flat text is flattened to itself. -/
theorem ofText_of_flat {chars : List Char} (flat : Flat chars) :
    (ofText (String.ofList chars)).chars = chars := by
  rw [chars_ofText, String.toList_ofList]
  cases chars with
  | nil => rfl
  | cons char rest =>
      rw [lines_eq_singleton (List.cons_ne_nil _ _) flat.oneLine, kept,
        List.map_singleton, trim_eq_self flat.first flat.last]
      rfl

end Source

theorem toList_flatten (raw : String) :
    (flatten raw).toList = (Source.ofText raw).chars :=
  String.toList_ofList

theorem flatten_eq_self {raw : String} :
    flatten raw = raw ↔ Text.Flat raw.toList := by
  constructor
  · intro same
    rw [← same, toList_flatten]
    exact Source.flat_ofText raw
  · intro flat
    rw [← String.toList_inj, toList_flatten]
    have settled := Source.ofText_of_flat flat
    rwa [String.ofList_toList] at settled

namespace Text

theorem exists_append_row (next : List Char) (back : List (List Char)) :
    ∃ after, row (next :: back) = next ++ after := by
  cases back with
  | nil => exact ⟨[], (List.append_nil next).symm⟩
  | cons other rest =>
      exact ⟨gap next other ++ row (other :: rest), List.append_assoc ..⟩

theorem exists_row_append (front : List (List Char)) (line : List Char) :
    ∃ before, row (front ++ [line]) = before ++ line := by
  induction front with
  | nil => exact ⟨[], rfl⟩
  | cons first rest induction =>
      obtain ⟨before, ends⟩ := induction
      cases rest with
      | nil => exact ⟨first ++ gap first line, rfl⟩
      | cons second others =>
          refine ⟨first ++ gap first second ++ before, ?_⟩
          rw [List.append_assoc, ← ends]
          rfl

end Text

open Text

/-- Flattening keeps all that is not blank, in its order. It gives flat texts,
and those are the texts that it leaves as they are. The lines that are kept
stand in a row: two neighbours touch at the edge of a tag, and have one space
between them elsewhere. -/
theorem flatten_normal (raw : String) :
    inked (flatten raw).toList = inked raw.toList ∧
      (flatten raw = raw ↔ Flat raw.toList) ∧ Flat (flatten raw).toList ∧
      flatten (flatten raw) = flatten raw ∧
      (flatten raw).toList = row (kept (lines raw.toList)) ∧
      ∀ front line next back,
        kept (lines raw.toList) = front ++ line :: next :: back →
        ∃ before after, row (front ++ [line]) = before ++ line ∧
          row (next :: back) = next ++ after ∧
          (flatten raw).toList =
            (before ++ line) ++ gap line next ++ (next ++ after) := by
  have flat : Flat (flatten raw).toList := by
    rw [toList_flatten]
    exact Source.flat_ofText raw
  have inRow : (flatten raw).toList = row (kept (lines raw.toList)) := by
    rw [toList_flatten, Source.chars_ofText]
  refine ⟨?_, flatten_eq_self, flat, flatten_eq_self.mpr flat, inRow, ?_⟩
  · rw [toList_flatten, Source.inked_ofText]
  · intro front line next back shape
    obtain ⟨before, ends⟩ := exists_row_append front line
    obtain ⟨after, begins⟩ := exists_append_row next back
    refine ⟨before, after, ends, begins, ?_⟩
    rw [inRow, shape, row_append, ends, begins]

/-- A line of wide blanks is dropped, a space goes between words and none before
a tag. -/
theorem flatten_normal_words :
    let raw := "  <p>é\r\n\t\u3000\nb \n<i>\r"
    kept (lines raw.toList) = ["<p>é".toList] ++ ['b'] :: "<i>".toList :: [] ∧
      flatten raw = "<p>é b<i>" ∧
      ∃ before after, row (["<p>é".toList] ++ [['b']]) = before ++ ['b'] ∧
        row ["<i>".toList] = "<i>".toList ++ after ∧
        (flatten raw).toList = (before ++ ['b']) ++ gap ['b'] "<i>".toList ++
          ("<i>".toList ++ after) := by
  intro raw
  have shape : kept (lines raw.toList) =
      ["<p>é".toList] ++ ['b'] :: "<i>".toList :: [] := by
    decide +kernel
  exact ⟨shape, by decide +kernel, (flatten_normal raw).2.2.2.2.2 _ _ _ _ shape⟩

end Stencil
