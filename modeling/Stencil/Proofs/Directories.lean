import Mathlib.Data.List.Basic
import Stencil.Files.FileSystem

namespace Stencil

/-! What is at the names of a tree before and after a change. -/

namespace Tree

inductive Kind where
  | file (content : ByteArray)
  | directory

def kind : Tree → Kind
  | .file content => .file content
  | .directory _ => .directory

def kind? (tree : Tree) (names : List String) : Option Kind :=
  (tree.at? names).map kind

variable {tree added : Tree} {name : String} {names other : List String}
  {entries : List (String × Tree)}

@[simp] theorem kind?_nil (tree : Tree) : tree.kind? [] = some tree.kind :=
  rfl

@[simp] theorem kind?_file (content : ByteArray) (name : String)
    (rest : List String) :
    (Tree.file content).kind? (name :: rest) = none :=
  rfl

theorem at?_cons (entries : List (String × Tree)) (name : String)
    (rest : List String) :
    (Tree.directory entries).at? (name :: rest) =
      (entries.lookup name).bind fun inner => inner.at? rest := by
  rw [at?]
  cases entries.lookup name <;> rfl

@[simp] theorem kind?_cons (entries : List (String × Tree)) (name : String)
    (rest : List String) :
    (Tree.directory entries).kind? (name :: rest) =
      (entries.lookup name).bind fun inner => inner.kind? rest := by
  rw [kind?, at?_cons]
  cases entries.lookup name <;> rfl

theorem at?_append (tree : Tree) (front back : List String) :
    tree.at? (front ++ back) =
      (tree.at? front).bind fun inner => inner.at? back := by
  induction front generalizing tree with
  | nil => rfl
  | cons name rest induction =>
      cases tree with
      | file content => rfl
      | directory entries =>
          rw [List.cons_append, at?_cons, at?_cons]
          cases entries.lookup name with
          | none => rfl
          | some inner => exact induction inner

theorem kind_eq_directory :
    tree.kind = .directory ↔ ∃ entries, tree = .directory entries := by
  cases tree <;> simp [kind]

theorem lookup_cons (name : String) (inner : Tree)
    (rest : List (String × Tree)) (other : String) :
    ((name, inner) :: rest).lookup other =
      if other = name then some inner else rest.lookup other := by
  rw [List.lookup_cons]
  by_cases same : other = name
  · rw [if_pos same, beq_iff_eq.mpr same]
  · rw [if_neg same, beq_eq_false_iff_ne.mpr same]

theorem lookup_assign (name : String) (tree : Tree)
    (entries : List (String × Tree)) (other : String) :
    (assign name tree entries).lookup other =
      if other = name then some tree else entries.lookup other := by
  induction entries with
  | nil => rw [assign, lookup_cons]
  | cons entry rest induction =>
      obtain ⟨first, inner⟩ := entry
      by_cases here : first = name
      · rw [assign, if_pos here, lookup_cons, lookup_cons, here]
        by_cases same : other = name <;> simp [same]
      · rw [assign, if_neg here, lookup_cons, induction, lookup_cons]
        by_cases same : other = name
        · rw [if_neg (same ▸ Ne.symm here), if_pos same, if_pos same]
        · rw [if_neg same, if_neg same]

theorem lookup_filter_ne (name : String) (entries : List (String × Tree))
    (other : String) :
    (entries.filter fun entry => entry.1 != name).lookup other =
      if other = name then none else entries.lookup other := by
  induction entries with
  | nil => simp
  | cons entry rest induction =>
      obtain ⟨first, inner⟩ := entry
      by_cases here : first = name
      · rw [List.filter_cons_of_neg (by simpa using here), induction,
          lookup_cons, here]
        by_cases same : other = name <;> simp [same]
      · rw [List.filter_cons_of_pos (by simpa using here), lookup_cons,
          induction, lookup_cons]
        by_cases same : other = name
        · rw [if_neg (same ▸ Ne.symm here), if_pos same, if_pos same]
        · rw [if_neg same, if_neg same]

theorem kind?_put (more : names ≠ [])
    (around : tree.kind? names.dropLast = some .directory)
    (other : List String) :
    (put added names tree).kind? other =
      if names <+: other then added.kind? (other.drop names.length)
      else tree.kind? other := by
  induction names generalizing tree other with
  | nil => exact absurd rfl more
  | cons name rest induction =>
      cases tree with
      | file content =>
          cases rest <;> simp [kind] at around
      | directory entries =>
          cases other with
          | nil => simp [put, kind]
          | cons first others =>
              simp only [put, kind?_cons, lookup_assign,
                List.cons_prefix_cons]
              by_cases here : first = name
              · subst here
                rw [if_pos rfl, Option.bind_some]
                cases rest with
                | nil => simp [put]
                | cons second rest =>
                    rw [List.dropLast_cons_cons, kind?_cons] at around
                    obtain ⟨inner, found, around⟩ :=
                      Option.bind_eq_some_iff.mp around
                    rw [found, Option.getD_some, Option.bind_some,
                      induction (List.cons_ne_nil second rest) around others]
                    simp
              · rw [if_neg here, if_neg fun inside => here inside.1.symm]

theorem kind?_discard (more : names ≠ []) (tree : Tree)
    (other : List String) :
    (tree.discard names).kind? other =
      if names <+: other then none else tree.kind? other := by
  induction names generalizing tree other with
  | nil => exact absurd rfl more
  | cons name rest induction =>
      cases tree with
      | file content =>
          cases other <;> simp [discard]
      | directory entries =>
          cases other with
          | nil =>
              have whole : ((Tree.directory entries).discard
                  (name :: rest)).kind = .directory := by
                cases rest with
                | nil => rfl
                | cons second rest =>
                    rw [discard]
                    · cases entries.lookup name <;> rfl
                    · simp
              rw [kind?_nil, kind?_nil, whole, if_neg (by simp)]
              rfl
          | cons first others =>
              simp only [List.cons_prefix_cons]
              cases rest with
              | nil =>
                  rw [discard, kind?_cons, lookup_filter_ne, kind?_cons]
                  by_cases here : first = name
                  · simp [here]
                  · rw [if_neg here, if_neg fun inside => here inside.1.symm]
              | cons second rest =>
                  have step := induction (List.cons_ne_nil second rest)
                  rw [discard]
                  · cases found : entries.lookup name with
                    | none =>
                        by_cases here : first = name
                        · subst here
                          simp [found]
                        · rw [if_neg fun inside => here inside.1.symm]
                    | some inner =>
                        dsimp only
                        rw [kind?_cons, lookup_assign, kind?_cons]
                        by_cases here : first = name
                        · subst here
                          simp [found, step]
                        · rw [if_neg here,
                            if_neg fun inside => here inside.1.symm]
                  · simp

theorem kind?_around {front back : List String} (more : back ≠ [])
    (found : tree.kind? (front ++ back) ≠ none) :
    tree.kind? front = some .directory := by
  unfold kind? at found ⊢
  rw [at?_append] at found
  cases here : tree.at? front with
  | none => simp [here] at found
  | some inner =>
      cases inner with
      | file content =>
          cases back with
          | nil => exact absurd rfl more
          | cons name rest => simp [here, at?] at found
      | directory entries => rfl

end Tree

namespace FileSystem

def kindAt (system : FileSystem) (names : List String) : Option Tree.Kind :=
  system.root.kind? names

variable {system : FileSystem} {names other : List String}

theorem isDirectory_iff :
    system.isDirectory names ↔ system.kindAt names = some .directory := by
  unfold isDirectory kindAt Tree.kind? at?
  rcases system.root.at? names with _ | ⟨_⟩ | ⟨_⟩ <;> simp [Tree.kind]

theorem not_isDirectory_iff :
    system.isDirectory names = false ↔
      system.kindAt names ≠ some .directory := by
  rw [← Bool.not_eq_true]
  exact not_congr isDirectory_iff

theorem file?_eq_some_iff {content : ByteArray} :
    system.file? names = some content ↔
      system.kindAt names = some (.file content) := by
  unfold file? kindAt Tree.kind? at?
  rcases system.root.at? names with _ | ⟨_⟩ | ⟨_⟩ <;> simp [Tree.kind]

theorem file?_congr {after : FileSystem}
    (same : after.kindAt names = system.kindAt names) :
    after.file? names = system.file? names := by
  ext content
  rw [file?_eq_some_iff, file?_eq_some_iff, same]

theorem isDirectory_congr {after : FileSystem}
    (same : after.kindAt names = system.kindAt names) :
    after.isDirectory names = system.isDirectory names := by
  rw [Bool.eq_iff_iff, isDirectory_iff, isDirectory_iff, same]

theorem kindAt_eq_none_iff :
    system.kindAt names = none ↔
      system.isDirectory names = false ∧ system.file? names = none := by
  unfold isDirectory file? kindAt Tree.kind? at?
  rcases system.root.at? names with _ | ⟨_⟩ | ⟨_⟩ <;> simp

theorem kindAt_put {added : Tree} (more : names ≠ [])
    (around : system.isDirectory names.dropLast) (other : List String) :
    (system.put names added).kindAt other =
      if names <+: other then added.kind? (other.drop names.length)
      else system.kindAt other :=
  Tree.kind?_put more (isDirectory_iff.mp around) other

theorem kindAt_discard (more : names ≠ []) (other : List String) :
    (system.discard names).kindAt other =
      if names <+: other then none else system.kindAt other :=
  Tree.kind?_discard more system.root other

theorem isDirectory_around {front back : List String} (more : back ≠ [])
    (found : system.kindAt (front ++ back) ≠ none) :
    system.isDirectory front :=
  isDirectory_iff.mpr (Tree.kind?_around more found)

theorem isDirectory_dropLast (directory : system.isDirectory names) :
    system.isDirectory names.dropLast := by
  rcases List.eq_nil_or_concat names with rfl | ⟨front, last, rfl⟩
  · exact directory
  · rw [List.concat_eq_append] at directory ⊢
    rw [List.dropLast_concat]
    refine isDirectory_around (List.cons_ne_nil last []) ?_
    rw [isDirectory_iff.mp directory]
    exact Option.some_ne_none _

end FileSystem

end Stencil
