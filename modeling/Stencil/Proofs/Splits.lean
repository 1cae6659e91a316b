import Mathlib.Data.List.Basic
import Stencil.Text.Search

namespace Stencil.Text

/-! Splitting a text at a character undoes joining it with that character. -/

theorem split_eq_splitOn (separator : Char) (chars : List Char) :
    split separator chars = chars.splitOn separator := by
  induction chars with
  | nil => rfl
  | cons char rest induction =>
      rw [split, induction, List.splitOn_cons_eq_if_modifyHead]
      by_cases here : char = separator
      · simp [here]
      · obtain ⟨part, parts, shape⟩ :=
          List.exists_cons_of_ne_nil (List.splitOn_ne_nil separator rest)
        simp [here, shape]

theorem not_mem_of_mem_split {separator : Char} {chars part : List Char}
    (member : part ∈ split separator chars) : separator ∉ part := by
  induction chars generalizing part with
  | nil => simp_all [split]
  | cons char rest induction =>
      rw [split] at member
      split at member
      case isTrue =>
        obtain rfl | member := List.mem_cons.mp member
        · exact List.not_mem_nil
        · exact induction member
      case isFalse other =>
        split at member
        case h_1 =>
          obtain rfl := List.mem_singleton.mp member
          simpa using Ne.symm other
        case h_2 first parts shape =>
          obtain rfl | member := List.mem_cons.mp member
          · have inside : separator ∉ first := induction (by simp [shape])
            simp [Ne.symm other, inside]
          · exact induction (by simp [shape, member])

theorem split_of_not_mem {separator : Char} {chars : List Char}
    (none : separator ∉ chars) :
    split separator chars = [chars] := by
  induction chars with
  | nil => rfl
  | cons char rest induction =>
      obtain ⟨other, others⟩ := not_or.mp (mt List.mem_cons.mpr none)
      rw [split, if_neg (Ne.symm other), induction others]

theorem split_append_separator (separator : Char) (left right : List Char) :
    split separator (left ++ separator :: right) =
      split separator left ++ split separator right := by
  simp only [split_eq_splitOn, List.splitOn_append_cons_self]

theorem split_append_cons {separator : Char} {part : List Char}
    (none : separator ∉ part) (rest : List Char) :
    split separator (part ++ separator :: rest) =
      part :: split separator rest := by
  rw [split_append_separator, split_of_not_mem none, List.singleton_append]

theorem split_intercalate {separator : Char} {parts : List (List Char)}
    (some : parts ≠ []) (none : ∀ part ∈ parts, separator ∉ part) :
    split separator ([separator].intercalate parts) = parts := by
  rw [split_eq_splitOn, List.splitOn_intercalate separator none some]

theorem intercalate_split (separator : Char) (chars : List Char) :
    [separator].intercalate (split separator chars) = chars := by
  rw [split_eq_splitOn, List.intercalate_splitOn]

theorem intercalate_front {separator : List Char}
    {front : List (List Char)} (some : front ≠ [])
    (back : List (List Char)) :
    separator.intercalate front <+: separator.intercalate (front ++ back) := by
  induction front with
  | nil => exact absurd rfl some
  | cons part rest induction =>
      cases rest with
      | nil =>
          rw [List.intercalate_singleton, List.singleton_append]
          cases back with
          | nil =>
              have single : separator.intercalate [part] = part :=
                List.intercalate_singleton
              exact single.symm ▸ List.prefix_refl part
          | cons next others =>
              rw [List.intercalate_cons_cons, List.append_assoc]
              exact List.prefix_append ..
      | cons next others =>
          rw [List.cons_append, List.intercalate_cons_cons,
            List.cons_append, List.intercalate_cons_cons,
            List.prefix_append_right_inj]
          exact induction (List.cons_ne_nil next others)

theorem exists_of_split_concat {separator : Char} {chars last : List Char}
    {front : List (List Char)} (some : front ≠ [])
    (shape : split separator chars = front ++ [last]) :
    ∃ stem, split separator stem = front ∧ separator ∉ last ∧
      chars = stem ++ separator :: last := by
  have absent : ∀ part ∈ front ++ [last], separator ∉ part := by
    rw [← shape]
    exact fun part => not_mem_of_mem_split
  have plain := absent last (by simp)
  have stem := split_intercalate some fun part member =>
    absent part (List.mem_append_left _ member)
  refine ⟨[separator].intercalate front, stem, plain, ?_⟩
  rw [← intercalate_split separator chars, shape,
    ← intercalate_split separator
      ([separator].intercalate front ++ separator :: last),
    split_append_separator, stem, split_of_not_mem plain]

theorem split_eq_empty {separator : Char} {chars : List Char} :
    split separator chars = [[]] ↔ chars = [] := by
  constructor
  · intro alone
    rw [← intercalate_split separator chars, alone]
    rfl
  · rintro rfl
    rfl

end Stencil.Text
