import Mathlib.Data.List.Lex
import Mathlib.Data.Prod.Lex
import Mathlib.Data.String.Basic
import Stencil.Proofs.Outcome
import Stencil.Proofs.Places

namespace Stencil.Path

open Text

/-! Paths are compared part by part, and the last part of a path tells what kind
of file it names. -/

namespace Part

/-- What parts are compared by: first what they are, then the text of a name. -/
def key : Part → ℕ ×ₗ String
  | .root => toLex (0, "")
  | .here => toLex (1, "")
  | .up => toLex (2, "")
  | .name text => toLex (3, text)

theorem key_injective : Function.Injective key := by
  intro left right same
  cases left <;> cases right <;> simp_all [key]

instance : LinearOrder Part := LinearOrder.lift' key key_injective

theorem isBefore_iff {left right : Part} :
    left.isBefore right ↔ left < right := by
  change _ ↔ left.key < right.key
  cases left <;> cases right <;>
    simp [isBefore, rank, key, Prod.Lex.toLex_lt_toLex]

theorem precede_iff {lefts rights : List Part} :
    precede lefts rights ↔ lefts ≤ rights := by
  rw [← not_lt]
  fun_induction precede lefts rights with
  | case1 => simp
  | case2 => simp
  | case3 first lefts rights induction => simp [induction]
  | case4 left lefts right rights apart =>
      rw [isBefore_iff, List.cons_lt_cons_iff]
      grind

end Part

theorem precedes_iff {left right : String} :
    precedes left right ↔ parts left ≤ parts right :=
  Part.precede_iff

section Parts

variable {path name : String} {names : List String}

theorem lead_join (filled : path ≠ "") (name : String) :
    lead (join path name) = lead path := by
  have begins : (join path name).toList.head? = path.toList.head? := by
    have chars : path.toList ≠ [] := by simpa using filled
    unfold join
    split <;> simp [List.head?_append_of_ne_nil _ chars, List.append_assoc]
  obtain ⟨front, idle, whole, some, -, joined⟩ := segments_join path name
  rw [lead, lead, isAbsolute, isAbsolute, begins, joined, whole,
    List.head?_append_of_ne_nil _ some, List.head?_append_of_ne_nil _ some]

theorem parts_join (filled : path ≠ "") (entry : IsEntry name) :
    parts (join path name) = parts path ++ [.name name] := by
  rw [parts, parts, lead_join filled, steps_join, steps_of_isEntry entry,
    List.map_append, List.append_assoc]
  rfl

theorem join_ne_empty (filled : path ≠ "") (name : String) :
    join path name ≠ "" := by
  unfold join
  split <;> simp [filled]

theorem parts_foldl_join (filled : path ≠ "")
    (entries : ∀ name ∈ names, IsEntry name) :
    parts (names.foldl join path) = parts path ++ names.map .name := by
  induction names generalizing path with
  | nil => simp
  | cons name rest induction =>
      rw [List.foldl_cons, induction (join_ne_empty filled name)
          fun other member => entries other (List.mem_cons_of_mem _ member),
        parts_join filled (entries name List.mem_cons_self), List.map_cons,
        List.append_assoc, List.singleton_append]

theorem foldl_join_inj {others : List String} (filled : path ≠ "")
    (left : ∀ name ∈ names, IsEntry name)
    (right : ∀ name ∈ others, IsEntry name)
    (same : parts (names.foldl join path) = parts (others.foldl join path)) :
    names = others := by
  rw [parts_foldl_join filled left, parts_foldl_join filled right,
    List.append_cancel_left_eq] at same
  exact List.map_injective_iff.mpr (fun _ _ => Part.name.inj) same

end Parts

theorem pairwise_mergeSort (found : List String) :
    (found.mergeSort precedes).Pairwise
      fun left right => parts left ≤ parts right := by
  have sorted : (found.mergeSort precedes).Pairwise
      fun left right => precedes left right := by
    apply List.pairwise_mergeSort
    · intro first second third
      simpa only [precedes_iff] using le_trans
    · intro first second
      simpa only [Bool.or_eq_true, precedes_iff] using
        le_total (parts first) (parts second)
  exact sorted.imp precedes_iff.mp

/-- Sorting brings paths into the one order in which they can stand. -/
theorem mergeSort_precedes {found paths : List String}
    (same : found.Perm paths)
    (apart : paths.Pairwise fun left right => parts left < parts right) :
    found.mergeSort precedes = paths := by
  refine List.Perm.eq_of_pairwise ?_ (pairwise_mergeSort found)
    (apart.imp le_of_lt) ((List.mergeSort_perm _ _).trans same)
  intro left right leftMember rightMember forward backward
  have listed := same.subset (List.mem_mergeSort.mp leftMember)
  rcases apart.eq_or_rel listed rightMember with equal | less | less
  · exact equal
  · exact absurd backward (not_le_of_gt less)
  · exact absurd forward (not_le_of_gt less)

section Extension

variable {name text : String}

theorem suffix?_of_split {front : List (List Char)} {last : List Char}
    (shape : split '.' name.toList = front ++ [last]) :
    suffix? name =
      if front = [] ∨ front = [[]] then none
      else some (String.ofList last) := by
  rw [suffix?, shape, List.reverse_append, List.reverse_singleton,
    List.singleton_append]
  rcases List.eq_nil_or_concat front with rfl | ⟨before, nearest, rfl⟩
  · rfl
  · cases before <;> simp

theorem suffix?_eq_some_iff : suffix? name = some text ↔
    ∃ stem, stem ≠ [] ∧ '.' ∉ text.toList ∧
      name.toList = stem ++ '.' :: text.toList := by
  constructor
  · intro found
    obtain none | ⟨front, last, shape⟩ :=
      List.eq_nil_or_concat (split '.' name.toList)
    · rw [suffix?, none] at found
      cases found
    · rw [List.concat_eq_append] at shape
      rw [suffix?_of_split shape] at found
      split at found
      · cases found
      · rename_i more
        obtain ⟨some, filled⟩ := not_or.mp more
        obtain rfl := Option.some.inj found
        obtain ⟨stem, rfl, plain, whole⟩ := exists_of_split_concat some shape
        rw [String.toList_ofList]
        exact ⟨stem, fun empty => filled (split_eq_empty.mpr empty), plain,
          whole⟩
  · rintro ⟨stem, some, plain, whole⟩
    have shape : split '.' name.toList = split '.' stem ++ [text.toList] := by
      rw [whole, split_append_separator, split_of_not_mem plain]
    rw [suffix?_of_split shape, if_neg, String.ofList_toList]
    rw [split_eq_empty, split_eq_splitOn]
    exact not_or.mpr ⟨List.splitOn_ne_nil '.' stem, some⟩

theorem extension?_eq_some_iff {path : String} :
    extension? path = some text ↔ ∃ name stem, lastName? path = some name ∧
      stem ≠ [] ∧ '.' ∉ text.toList ∧
      name.toList = stem ++ '.' :: text.toList := by
  rw [extension?, Option.bind_eq_some_iff]
  simp only [suffix?_eq_some_iff, exists_and_left]

end Extension

end Stencil.Path
