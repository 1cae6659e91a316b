import Mathlib.Logic.Function.Iterate
import Stencil.Emit.Indent
import Stencil.Proofs.Flattening
import Stencil.Proofs.Splits

namespace Stencil

open Text

/-! Indenting a text of full lines puts one tab before each of them and changes
nothing else. -/

namespace Text

def OneLine (text : String) : Prop :=
  '\n' ∉ text.toList

instance (text : String) : Decidable (OneLine text) :=
  inferInstanceAs (Decidable ('\n' ∉ text.toList))

@[simp] theorem oneLine_append {left right : String} :
    OneLine (left ++ right) ↔ OneLine left ∧ OneLine right := by
  simp [OneLine]

theorem oneLine_intercalate {separator : String} {parts : List String}
    (plain : OneLine separator) (each : ∀ part ∈ parts, OneLine part) :
    OneLine (separator.intercalate parts) := by
  induction parts with
  | nil => simp [OneLine]
  | cons part rest induction =>
      obtain ⟨first, later⟩ := List.forall_mem_cons.mp each
      cases rest with
      | nil => rwa [String.intercalate_singleton]
      | cons next others =>
          rw [String.intercalate_cons_cons, oneLine_append, oneLine_append]
          exact ⟨⟨first, plain⟩, induction later⟩

/-- A line that holds something and that no carriage return ends, so that it is
read back as it stands. -/
structure FullLine (line : String) : Prop where
  oneLine : OneLine line
  ends : ∃ last, line.toList.getLast? = some last ∧ last ≠ '\r'

theorem FullLine.ne_empty {line : String} (full : FullLine line) :
    line ≠ "" := by
  rintro rfl
  obtain ⟨_, _, last, _⟩ := full
  cases last

theorem FullLine.append {front back : String} (oneLine : OneLine front)
    (full : FullLine back) :
    FullLine (front ++ back) := by
  obtain ⟨plain, last, ends, other⟩ := full
  refine ⟨oneLine_append.mpr ⟨oneLine, plain⟩, last, ?_, other⟩
  rw [String.toList_append, List.getLast?_append, ends, Option.some_or]

theorem lines_feed {line : List Char} (plain : '\n' ∉ line)
    (ends : line.getLast? ≠ some '\r') (rest : List Char) :
    lines (line ++ '\n' :: rest) = line :: lines rest := by
  induction line with
  | nil => rw [List.nil_append, lines]
  | cons char more induction =>
      obtain ⟨other, others⟩ := not_or.mp (mt List.mem_cons.mpr plain)
      have behind : lines (more ++ '\n' :: rest) = more :: lines rest := by
        refine induction others ?_
        cases more with
        | nil => simp
        | cons next more => rwa [List.getLast?_cons_cons] at ends
      rw [List.cons_append, lines, behind]
      · exact fun feed => other feed.symm
      · rintro after rfl shape
        cases more with
        | nil => exact ends rfl
        | cons next more =>
            obtain ⟨rfl, _⟩ := List.cons.inj shape
            exact others (List.mem_cons_self ..)

end Text

namespace Emit

def splitLines (text : String) : List String :=
  (split '\n' text.toList).map String.ofList

theorem toList_joinLines (lines : List String) :
    (joinLines lines).toList =
      ['\n'].intercalate (lines.map String.toList) := by
  rw [joinLines, String.toList_intercalate]
  rfl

theorem map_ofList_toList (lines : List String) :
    (lines.map String.toList).map String.ofList = lines := by
  rw [List.map_map]
  exact List.map_id'' (fun line => String.ofList_toList) lines

theorem joinLines_splitLines (text : String) :
    joinLines (splitLines text) = text := by
  apply String.toList_inj.mp
  rw [toList_joinLines, splitLines, List.map_map]
  have same : (String.toList ∘ String.ofList) = id := funext fun chars =>
    String.toList_ofList
  rw [same, List.map_id, intercalate_split]

theorem splitLines_joinLines {lines : List String} (some : lines ≠ [])
    (each : ∀ line ∈ lines, OneLine line) :
    splitLines (joinLines lines) = lines := by
  rw [splitLines, toList_joinLines, split_intercalate (by simpa using some),
    map_ofList_toList]
  simpa [OneLine] using each

theorem lines_joinLines {lines : List String}
    (full : ∀ line ∈ lines, FullLine line) :
    Text.lines (joinLines lines).toList = lines.map String.toList := by
  rw [toList_joinLines]
  induction lines with
  | nil => rfl
  | cons line rest induction =>
      obtain ⟨first, later⟩ := List.forall_mem_cons.mp full
      cases rest with
      | nil =>
          have some : line.toList ≠ [] := fun none =>
            first.ne_empty (by simpa using none)
          rw [List.map_singleton, List.intercalate_singleton,
            lines_eq_singleton some first.oneLine]
      | cons next others =>
          have ends : line.toList.getLast? ≠ some '\r' := by
            obtain ⟨_, last, found, other⟩ := first
            rw [found]
            exact fun same => other (Option.some.inj same)
          rw [List.map_cons, List.map_cons, List.intercalate_cons_cons,
            List.append_assoc, List.singleton_append,
            lines_feed first.oneLine ends, ← List.map_cons, induction later]

theorem indentLines_of_full {lines : List String}
    (full : ∀ line ∈ lines, FullLine line) :
    indentLines lines = lines.map ("\t" ++ ·) := by
  refine List.map_congr_left fun line member => ?_
  rw [indentLine, if_neg]
  exact fun empty => (full line member).ne_empty (String.isEmpty_iff.mp empty)

theorem indent_joinLines {lines : List String}
    (full : ∀ line ∈ lines, FullLine line) :
    indent (joinLines lines) = joinLines (lines.map ("\t" ++ ·)) := by
  rw [indent, lines_joinLines full, map_ofList_toList, indentLines_of_full full]

def tabs (depth : Nat) : String :=
  String.ofList (List.replicate depth '\t')

def outdentLine (depth : Nat) (line : String) : String :=
  String.ofList (line.toList.drop depth)

theorem outdentLine_tabs (depth : Nat) (line : String) :
    outdentLine depth (tabs depth ++ line) = line := by
  rw [outdentLine, tabs, String.toList_append, String.toList_ofList,
    List.drop_left' List.length_replicate, String.ofList_toList]

theorem tabs_succ (depth : Nat) (line : String) :
    "\t" ++ (tabs depth ++ line) = tabs (depth + 1) ++ line := by
  apply String.toList_inj.mp
  simp [tabs, List.replicate_succ]

theorem indentLines_iterate {lines : List String}
    (full : ∀ line ∈ lines, FullLine line) (depth : Nat) :
    indentLines^[depth] lines = lines.map (tabs depth ++ ·) := by
  have tabbed : ∀ depth, OneLine (tabs depth) := by
    intro depth
    simp [OneLine, tabs]
  induction depth with
  | zero =>
      rw [Function.iterate_zero, id_eq]
      refine (List.map_id'' (fun line => ?_) lines).symm
      exact String.empty_append
  | succ depth induction =>
      have deeper : ∀ line ∈ lines.map (tabs depth ++ ·), FullLine line := by
        intro line member
        obtain ⟨inner, listed, rfl⟩ := List.mem_map.mp member
        exact .append (tabbed depth) (full inner listed)
      rw [Function.iterate_succ_apply', induction, indentLines_of_full deeper,
        List.map_map]
      exact List.map_congr_left fun line _ => tabs_succ depth line

end Emit

end Stencil
