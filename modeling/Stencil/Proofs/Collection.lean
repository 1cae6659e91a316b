import Mathlib.Data.List.Nodup
import Stencil.Proofs.PathOrder
import Stencil.Proofs.Publishing

namespace Stencil

open Stencil.Path

/-! The templates of a build are all files at or below its input that have the
extension `html`, in the order of their paths, whatever order a walk comes upon
them in. -/

namespace Tree

/-- In every directory the entries have names of their own. -/
inductive WellNamed : Tree → Prop
  | file (content : ByteArray) : WellNamed (.file content)
  | directory {entries : List (String × Tree)}
      (apart : (entries.map Prod.fst).Nodup)
      (named : ∀ entry ∈ entries, IsEntry entry.1)
      (inside : ∀ entry ∈ entries, entry.2.WellNamed) :
      WellNamed (.directory entries)

variable {tree : Tree} {path : String} {visit : Visit}
  {entries : List (String × Tree)}

theorem lookup_eq_some_iff_mem (apart : (entries.map Prod.fst).Nodup)
    {name : String} {inner : Tree} :
    entries.lookup name = some inner ↔ (name, inner) ∈ entries := by
  induction entries with
  | nil => simp
  | cons entry rest induction =>
      obtain ⟨first, tree⟩ := entry
      rw [List.map_cons, List.nodup_cons] at apart
      rw [lookup_cons, List.mem_cons, Prod.mk.injEq]
      by_cases here : name = first
      · subst here
        have alone : (name, inner) ∉ rest := fun member =>
          apart.1 (List.mem_map.mpr ⟨_, member, rfl⟩)
        rw [if_pos rfl, Option.some.injEq]
        simp [alone, eq_comm]
      · rw [if_neg here, induction apart.2]
        simp [here]

theorem WellNamed.at? {names : List String} {inner : Tree}
    (sound : tree.WellNamed) (found : tree.at? names = some inner) :
    inner.WellNamed ∧ ∀ name ∈ names, IsEntry name := by
  induction names generalizing tree with
  | nil =>
      obtain rfl := Option.some.inj found
      exact ⟨sound, by simp⟩
  | cons name rest induction =>
      cases sound with
      | file content => cases found
      | directory apart named inside =>
          rw [at?_cons, Option.bind_eq_some_iff] at found
          obtain ⟨next, listed, further⟩ := found
          have member := (lookup_eq_some_iff_mem apart).mp listed
          obtain ⟨sound, names⟩ := induction (inside _ member) further
          exact ⟨sound, List.forall_mem_cons.mpr ⟨named _ member, names⟩⟩

theorem visitsIn_eq_flatMap (path : String)
    (entries : List (String × Tree)) :
    visitsIn path entries =
      entries.flatMap fun entry => entry.2.visits (join path entry.1) := by
  induction entries with
  | nil => rfl
  | cons entry rest induction =>
      rw [visitsIn, induction, List.flatMap_cons]

/-- A walk comes upon what some names lead to, under the path that goes down by
these names. -/
theorem mem_visits (sound : tree.WellNamed) :
    visit ∈ tree.visits path ↔ ∃ inner found, tree.at? inner = some found ∧
      visit = ⟨inner.foldl join path, found.isFile⟩ := by
  induction sound generalizing path with
  | file content =>
      rw [visits, List.mem_singleton]
      constructor
      · rintro rfl
        exact ⟨[], _, rfl, rfl⟩
      · rintro ⟨_ | ⟨name, rest⟩, found, leads, rfl⟩
        · obtain rfl := Option.some.inj leads
          rfl
        · cases leads
  | @directory entries apart named inside induction =>
      rw [visits, visitsIn_eq_flatMap, List.mem_cons, List.mem_flatMap]
      constructor
      · rintro (rfl | ⟨⟨name, next⟩, member, below⟩)
        · exact ⟨[], _, rfl, rfl⟩
        · obtain ⟨rest, found, leads, rfl⟩ := (induction _ member).mp below
          refine ⟨name :: rest, found, ?_, rfl⟩
          rw [at?_cons, (lookup_eq_some_iff_mem apart).mpr member]
          exact leads
      · rintro ⟨_ | ⟨name, rest⟩, found, leads, rfl⟩
        · obtain rfl := Option.some.inj leads
          exact .inl rfl
        · rw [at?_cons, Option.bind_eq_some_iff] at leads
          obtain ⟨next, listed, further⟩ := leads
          have member := (lookup_eq_some_iff_mem apart).mp listed
          exact .inr ⟨(name, next), member,
            (induction _ member).mpr ⟨rest, found, further, rfl⟩⟩

theorem parts_of_mem_visits (sound : tree.WellNamed) (filled : path ≠ "")
    (member : visit ∈ tree.visits path) :
    ∃ names : List String,
      parts visit.path = parts path ++ names.map .name := by
  obtain ⟨inner, found, leads, rfl⟩ := (mem_visits sound).mp member
  exact ⟨inner, parts_foldl_join filled (sound.at? leads).2⟩

theorem nodup_visits (sound : tree.WellNamed) (filled : path ≠ "") :
    (tree.visits path).Nodup := by
  induction sound generalizing path with
  | file content => exact List.nodup_singleton _
  | @directory entries apart named inside induction =>
      have below : ∀ entry ∈ entries, ∀ visit ∈
          entry.2.visits (join path entry.1), ∃ names : List String,
            parts visit.path = parts path ++ (entry.1 :: names).map .name := by
        intro entry member visit found
        obtain ⟨names, shape⟩ := parts_of_mem_visits (inside entry member)
          (join_ne_empty filled _) found
        refine ⟨names, ?_⟩
        rw [shape, parts_join filled (named entry member), List.append_assoc]
        rfl
      rw [visits, visitsIn_eq_flatMap, List.nodup_cons, List.nodup_flatMap]
      refine ⟨fun listed => ?_, fun entry member =>
        induction entry member (join_ne_empty filled _), ?_⟩
      · obtain ⟨entry, member, found⟩ := List.mem_flatMap.mp listed
        obtain ⟨names, shape⟩ := below entry member _ found
        simp at shape
      · refine (List.pairwise_map.mp apart).imp_of_mem ?_
        intro left right leftMember rightMember different visit first second
        obtain ⟨lefts, leftShape⟩ := below left leftMember _ first
        obtain ⟨rights, rightShape⟩ := below right rightMember _ second
        rw [leftShape, List.append_cancel_left_eq, List.map_cons,
          List.map_cons, List.cons.injEq] at rightShape
        exact different (Part.name.inj rightShape.1)

end Tree

theorem FileSystem.ne_empty_of_entryAt {system : FileSystem} {input : String}
    {found : Tree} (present : system.entryAt input = .ok found) :
    input ≠ "" := by
  rintro rfl
  obtain ⟨names, leads, -⟩ := entryAt_eq_ok_iff.mp present
  have refused : fault? "" = some .missing := by decide
  rw [(resolve_eq_ok_iff.mp leads).1] at refused
  cases refused

theorem FileSystem.walk_cases {system : FileSystem} {input : String}
    {found : Tree} (present : system.entryAt input = .ok found) :
    system.walk input = (found.visits input).map .ok ∨
      ∃ visit ∈ found.visits input, visit.isFile = false ∧
        limit < visit.path.utf8ByteSize ∧
        system.walk input = [.error ⟨visit.path, .nameTooLong⟩] := by
  unfold walk
  rw [present]
  dsimp only
  split
  · rename_i visit barrier
    have stops := List.find?_some barrier
    rw [Bool.and_eq_true, Bool.not_eq_true', decide_eq_true_iff] at stops
    exact .inr ⟨visit, List.mem_of_find?_eq_some barrier, stops.1, stops.2,
      rfl⟩
  · exact .inl rfl

namespace Build

def isTemplate (visit : Visit) : Bool :=
  visit.isFile && extension? visit.path == some "html"

theorem isFile_of_isTemplate {visit : Visit} (template : isTemplate visit) :
    visit.isFile = true :=
  (Bool.and_eq_true_iff.mp template).1

def templatePaths (walk : List Visit) : List String :=
  ((walk.filter isTemplate).map Visit.path).mergeSort precedes

theorem foldlM_gather (input : String) (paths : List String)
    (walk : List Visit) :
    (walk.map Except.ok).foldlM (gather input) paths =
      .ok (paths ++ (walk.filter isTemplate).map Visit.path) := by
  induction walk generalizing paths with
  | nil => simp [pure, Except.pure]
  | cons visit rest induction =>
      have step : gather input paths (.ok visit) =
          .ok (if isTemplate visit then paths ++ [visit.path] else paths) := by
        rw [gather, isTemplate]
        split <;> rfl
      rw [List.map_cons, List.foldlM_cons, step]
      refine (induction _).trans ?_
      by_cases kept : isTemplate visit <;> simp [kept]

section Paths

variable {found : Tree} {input : String}

theorem perform_collect_ok {Handle : Type}
    {disk : Disk Handle (StateM FileSystem)} {system after : FileSystem}
    {walk : List Visit}
    (walked : system.perform (disk.walk input) = (walk.map .ok, after)) :
    system.perform (collect disk input).run =
      (.ok (templatePaths walk), after) := by
  rw [perform_collect walked, foldlM_gather, List.nil_append]
  rfl

theorem mem_templatePaths (sound : found.WellNamed) {path : String} :
    path ∈ templatePaths (found.visits input) ↔
      ∃ inner content, found.at? inner = some (.file content) ∧
        path = inner.foldl join input ∧ extension? path = some "html" := by
  rw [templatePaths, List.mem_mergeSort, List.mem_map]
  simp only [List.mem_filter, Tree.mem_visits sound, isTemplate,
    Bool.and_eq_true, beq_iff_eq]
  constructor
  · rintro ⟨visit, ⟨⟨inner, tree, leads, rfl⟩, regular, html⟩, rfl⟩
    cases tree with
    | file content => exact ⟨inner, content, leads, rfl, html⟩
    | directory entries => cases regular
  · rintro ⟨inner, content, leads, rfl, html⟩
    exact ⟨_, ⟨⟨inner, _, leads, rfl⟩, rfl, html⟩, rfl⟩

theorem pairwise_templatePaths (sound : found.WellNamed)
    (filled : input ≠ "") :
    (templatePaths (found.visits input)).Pairwise
      fun left right => parts left < parts right := by
  have single : ((found.visits input).filter isTemplate).Nodup :=
    (Tree.nodup_visits sound filled).filter _
  have apart : (templatePaths (found.visits input)).Nodup := by
    rw [templatePaths, (List.mergeSort_perm _ _).nodup_iff]
    refine List.Nodup.map_on ?_ single
    intro left leftMember right rightMember same
    have regular := isFile_of_isTemplate (List.mem_filter.mp leftMember).2
    rw [← isFile_of_isTemplate (List.mem_filter.mp rightMember).2] at regular
    exact Visit.ext same regular
  refine ((pairwise_mergeSort _).and apart).imp_of_mem ?_
  rintro left right leftMember rightMember ⟨ahead, different⟩
  obtain ⟨lefts, _, leftLeads, rfl, -⟩ :=
    (mem_templatePaths sound).mp leftMember
  obtain ⟨rights, _, rightLeads, rfl, -⟩ :=
    (mem_templatePaths sound).mp rightMember
  refine lt_of_le_of_ne ahead fun same => different ?_
  rw [foldl_join_inj filled (sound.at? leftLeads).2 (sound.at? rightLeads).2
    same]

end Paths

/-- From an input that exists, a build takes every regular file at or below it
that has the extension `html`, each once and nothing else, and the parts of
their paths grow strictly. So it does with any walk that comes upon all there is
once, whatever its order. The walk of a file system fails only at a directory
that cannot be opened since its path is too long. -/
theorem collect_exact {system : FileSystem} (sound : system.root.WellNamed)
    {input : String} {found : Tree}
    (present : system.entryAt input = .ok found) :
    ∃ paths : List String,
      (∀ path, path ∈ paths ↔ ∃ inner content,
        found.at? inner = some (.file content) ∧
        path = inner.foldl join input ∧ extension? path = some "html") ∧
      paths.Pairwise (fun left right => parts left < parts right) ∧
      (∀ (Handle : Type) (disk : Disk Handle (StateM FileSystem))
        (walk : List Visit), walk.Nodup →
        (∀ visit, visit ∈ walk ↔ ∃ inner tree,
          found.at? inner = some tree ∧
          visit = ⟨inner.foldl join input, tree.isFile⟩) →
        system.perform (disk.walk input) = (walk.map .ok, system) →
        system.perform (collect disk input).run = (.ok paths, system)) ∧
      (system.perform (collect FileSystem.disk input).run =
          (.ok paths, system) ∨
        ∃ inner entries, found.at? inner = some (.directory entries) ∧
          limit < (inner.foldl join input).utf8ByteSize ∧
          system.perform (collect FileSystem.disk input).run =
            (.error (.file (.walk (inner.foldl join input)) input
              .nameTooLong), system)) := by
  have filled := FileSystem.ne_empty_of_entryAt present
  obtain ⟨names, -, leads, -⟩ := FileSystem.entryAt_eq_ok_iff.mp present
  have sound := (sound.at? leads).1
  have ahead := pairwise_templatePaths sound filled
  refine ⟨templatePaths (found.visits input),
    fun path => mem_templatePaths sound, ahead, ?_, ?_⟩
  · intro Handle disk walk apart yields walked
    rw [perform_collect_ok walked]
    have same : walk.Perm (found.visits input) := by
      refine (List.perm_ext_iff_of_nodup apart
        (Tree.nodup_visits sound filled)).mpr fun visit => ?_
      rw [yields, Tree.mem_visits sound]
    have listed : ((walk.filter isTemplate).map Visit.path).Perm
        (templatePaths (found.visits input)) :=
      ((same.filter _).map _).trans (List.mergeSort_perm _ _).symm
    rw [templatePaths, mergeSort_precedes listed ahead]
  · obtain clear | ⟨visit, member, kind, long, stopped⟩ :=
      FileSystem.walk_cases present
    · have walked : system.perform (FileSystem.disk.walk input) =
          ((found.visits input).map .ok, system) :=
        congrArg (·, system) clear
      exact .inl (perform_collect_ok walked)
    · obtain ⟨inner, tree, leads, rfl⟩ := (Tree.mem_visits sound).mp member
      cases tree with
      | file content => cases kind
      | directory entries =>
          have walked : system.perform (FileSystem.disk.walk input) =
              ([.error ⟨inner.foldl join input, .nameTooLong⟩], system) :=
            congrArg (·, system) stopped
          exact .inr ⟨inner, entries, leads, long, perform_collect walked⟩

/-- A directory with a name like that of a template, a file and a directory that
begin alike, names with several dots, and one with nothing before its dot. -/
def shelf : Tree :=
  let blank : Tree := .file "".toUTF8
  .directory [("notes.txt", blank), ("b.html", blank), (".html", blank),
    ("a.html", blank), ("a", .directory [("z.html", blank)]),
    ("..html", blank),
    ("d.html", .directory [("x.HTML", blank), ("y.tar.html", blank)])]

theorem wellNamed_shelf : shelf.WellNamed := by
  have blank := Tree.WellNamed.file "".toUTF8
  refine .directory (by decide +kernel) (by decide +kernel) ?_
  simp only [List.forall_mem_cons]
  refine ⟨blank, blank, blank, blank, .directory (by decide +kernel)
    (by decide +kernel) ?_, blank, .directory (by decide +kernel)
    (by decide +kernel) ?_, by simp⟩
  · simpa using blank
  · simpa using blank

def library : FileSystem :=
  ⟨["desk"], .directory [("desk", .empty), ("shelf", shelf)]⟩

theorem wellNamed_library : library.root.WellNamed := by
  refine .directory (by decide +kernel) (by decide +kernel) ?_
  simp only [List.forall_mem_cons]
  exact ⟨.directory (by simp) (by simp) (by simp), wellNamed_shelf, by simp⟩

def shuffled : List Visit :=
  [⟨"../shelf/", false⟩, ⟨"../shelf/d.html", false⟩,
    ⟨"../shelf/d.html/y.tar.html", true⟩, ⟨"../shelf/d.html/x.HTML", true⟩,
    ⟨"../shelf/..html", true⟩, ⟨"../shelf/b.html", true⟩,
    ⟨"../shelf/a.html", true⟩, ⟨"../shelf/a", false⟩,
    ⟨"../shelf/a/z.html", true⟩, ⟨"../shelf/notes.txt", true⟩,
    ⟨"../shelf/.html", true⟩]

def sorted : List String :=
  ["../shelf/..html", "../shelf/a/z.html", "../shelf/a.html",
    "../shelf/b.html", "../shelf/d.html/y.tar.html"]

theorem templatePaths_shuffled : templatePaths shuffled = sorted :=
  mergeSort_precedes (by decide +kernel) (by decide +kernel)

theorem collect_exact_library :
    let disk := { FileSystem.disk with
      walk := fun _ => pure (shuffled.map .ok) }
    library.root.WellNamed ∧ library.entryAt "../shelf/" = .ok shelf ∧
      shuffled.Perm (shelf.visits "../shelf/") ∧
      library.perform (collect disk "../shelf/").run = (.ok sorted, library) ∧
      ∀ path, path ∈ sorted ↔ ∃ inner content,
        shelf.at? inner = some (.file content) ∧
        path = inner.foldl join "../shelf/" ∧
        extension? path = some "html" := by
  intro disk
  have present : library.entryAt "../shelf/" = .ok shelf := rfl
  have yields : shuffled.Perm (shelf.visits "../shelf/") := by
    decide +kernel
  have apart : shuffled.Nodup := by decide +kernel
  obtain ⟨paths, members, -, any, -⟩ :=
    collect_exact wellNamed_library present
  have collected := any _ disk shuffled apart
    (fun visit => yields.mem_iff.trans (Tree.mem_visits wellNamed_shelf)) rfl
  have walked : library.perform (disk.walk "../shelf/") =
      (shuffled.map .ok, library) := rfl
  have same := (perform_collect_ok walked).symm.trans collected
  obtain rfl : sorted = paths :=
    templatePaths_shuffled.symm.trans (Except.ok.inj (Prod.mk.inj same).1)
  exact ⟨wellNamed_library, present, yields, collected, members⟩

end Build

end Stencil
