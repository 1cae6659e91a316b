import Stencil.Proofs.Directories
import Stencil.Proofs.Splits

namespace Stencil

/-! Where a path leads does not depend on what is there. Files and directories
only decide how far it can be followed. -/

namespace Path

theorem plain_of_mem_segments {path segment : String}
    (member : segment ∈ segments path) :
    '/' ∉ segment.toList := by
  obtain ⟨chars, inside, rfl⟩ := List.mem_map.mp member
  rw [String.toList_ofList]
  exact Text.not_mem_of_mem_split inside

theorem segments_intercalate {names : List String} (some : names ≠ [])
    (plain : ∀ name ∈ names, '/' ∉ name.toList) :
    segments ("/".intercalate names) = names := by
  have apart : ∀ chars ∈ names.map String.toList, '/' ∉ chars := by
    simpa using plain
  have slash : "/".toList = ['/'] := rfl
  rw [segments, Text.split_eq_splitOn, String.toList_intercalate, slash,
    List.splitOn_intercalate '/' apart (by simpa using some), List.map_map]
  simp

theorem segments_append (path name : String) :
    segments (path ++ "/" ++ name) = segments path ++ segments name := by
  have slash : "/".toList = ['/'] := rfl
  simp only [segments, Text.split_eq_splitOn, String.toList_append, slash,
    List.append_assoc, List.singleton_append, List.splitOn_append_cons_self,
    List.map_append]

def Step.target (names : List String) : Step → List String
  | .up => names.dropLast
  | .down name => names ++ [name]

def Step.Fits : Step → Prop
  | .up => True
  | .down name => name.utf8ByteSize ≤ nameLimit

def walk (names : List String) (steps : List Step) : List String :=
  steps.foldl Step.target names

theorem segments_ne_nil (path : String) : segments path ≠ [] := by
  rw [segments, Text.split_eq_splitOn, ne_eq, List.map_eq_nil_iff]
  exact List.splitOn_ne_nil '/' path.toList

theorem segments_join (path name : String) :
    ∃ front idle, segments path = front ++ idle ∧ front ≠ [] ∧
      idle.filterMap step? = [] ∧
      segments (join path name) = front ++ segments name := by
  unfold join
  split
  case isTrue slashed =>
    obtain ⟨chars, shape⟩ := List.getLast?_eq_some_iff.mp slashed
    obtain ⟨front, rfl⟩ : ∃ front, path = front ++ "/" := by
      refine ⟨String.ofList chars, String.toList_injective ?_⟩
      simp [shape]
    have whole := segments_append front ""
    rw [String.append_empty] at whole
    exact ⟨segments front, segments "", whole, segments_ne_nil front,
      by decide, segments_append front name⟩
  case isFalse =>
    exact ⟨segments path, [], by simp, segments_ne_nil path, rfl,
      segments_append path name⟩

theorem steps_join {name : String} (path : String) :
    steps (join path name) = steps path ++ steps name := by
  obtain ⟨front, idle, whole, -, still, joined⟩ := segments_join path name
  rw [steps, steps, steps, whole, joined, List.filterMap_append,
    List.filterMap_append, still, List.append_nil]

/-- What a name in a directory can be. -/
structure IsEntry (name : String) : Prop where
  filled : name ≠ ""
  plain : '/' ∉ name.toList
  not_here : name ≠ "."
  not_up : name ≠ ".."

instance decidableIsEntry (name : String) : Decidable (IsEntry name) :=
  decidable_of_iff
    (name ≠ "" ∧ '/' ∉ name.toList ∧ name ≠ "." ∧ name ≠ "..")
    ⟨fun ⟨filled, plain, here, up⟩ => ⟨filled, plain, here, up⟩,
      fun entry => ⟨entry.filled, entry.plain, entry.not_here, entry.not_up⟩⟩

theorem segments_of_plain {name : String} (plain : '/' ∉ name.toList) :
    segments name = [name] := by
  rw [segments, Text.split_of_not_mem plain]
  simp

theorem steps_of_isEntry {name : String} (entry : IsEntry name) :
    steps name = [.down name] := by
  have step : step? name = some (.down name) := by
    rw [step?, if_neg (not_or.mpr ⟨entry.filled, entry.not_here⟩),
      if_neg entry.not_up]
  rw [steps, segments_of_plain entry.plain, List.filterMap_cons_some step,
    List.filterMap_nil]

theorem dropIdle_spec (path : List String) :
    (∃ idle, path = idle ++ dropIdle path ∧ idle.filterMap step? = []) ∧
      ∀ segment rest, dropIdle path = segment :: rest → step? segment = none →
        rest = [] := by
  induction path with
  | nil => simp [dropIdle]
  | cons segment rest induction =>
      obtain ⟨⟨idle, shape, still⟩, begins⟩ := induction
      rw [dropIdle]
      split
      case isTrue drop =>
        have stays : step? segment = none := if_pos (drop.imp_right And.left)
        refine ⟨⟨segment :: idle, by rw [List.cons_append, ← shape], ?_⟩,
          begins⟩
        rw [List.filterMap_cons_none stays, still]
      case isFalse kept =>
        refine ⟨⟨[], rfl, rfl⟩, fun first others same stays => ?_⟩
        obtain ⟨rfl, rfl⟩ := List.cons.inj same
        by_contra more
        refine kept ?_
        have idle : segment = "" ∨ segment = "." := by
          by_contra moves
          rw [step?, if_neg moves] at stays
          split at stays <;> cases stays
        exact idle.imp_right fun dot => ⟨dot, more⟩

theorem intercalate_segments (path : String) :
    "/".intercalate (segments path) = path := by
  apply String.toList_injective
  have slash : "/".toList = ['/'] := rfl
  have spelled : String.toList ∘ String.ofList = id :=
    funext fun chars => String.toList_ofList
  rw [String.toList_intercalate, slash, segments, List.map_map, spelled,
    List.map_id, Text.split_eq_splitOn, List.intercalate_splitOn]

theorem segments_of_ending {path : String} (named : ending path = .name) :
    ∃ front last, segments path = front ++ [last] ∧
      step? last = some (.down last) := by
  obtain ⟨front, last, shape⟩ :
      ∃ front last, segments path = front ++ [last] :=
    ⟨_, _, (List.dropLast_append_getLast (segments_ne_nil path)).symm⟩
  refine ⟨front, last, shape, ?_⟩
  rw [ending, shape, List.reverse_append, List.reverse_singleton,
    List.singleton_append] at named
  dsimp only at named
  by_cases none : last = ""
  · split at named
    · cases named
    · split at named <;> cases named
  · rw [List.find?_cons_of_pos (by simpa using none)] at named
    dsimp only at named
    split at named
    · cases named
    · rename_i dots
      obtain ⟨here, up⟩ := not_or.mp dots
      rw [step?, if_neg (not_or.mpr ⟨none, here⟩), if_neg up]

theorem steps_of_ending {path : String} (named : ending path = .name) :
    ∃ before last, steps path = before ++ [.down last] := by
  obtain ⟨front, last, shape, step⟩ := segments_of_ending named
  refine ⟨front.filterMap step?, last, ?_⟩
  rw [steps, shape, List.filterMap_append, List.filterMap_cons_some step,
    List.filterMap_nil]

theorem dropIdle_cons_of_step {segment : String} {step : Step}
    (moves : step? segment = some step) (rest : List String) :
    dropIdle (segment :: rest) = segment :: rest := by
  refine if_neg fun idle => ?_
  rw [step?, if_pos (idle.imp_right And.left)] at moves
  cases moves

theorem head_dropIdle_ne {path rest : List String} {segment : String}
    (kept : dropIdle path = segment :: rest) : segment ≠ "" := by
  induction path with
  | nil => cases kept
  | cons first others induction =>
      rw [dropIdle] at kept
      split at kept
      · exact induction kept
      · rename_i moves
        obtain ⟨rfl, rfl⟩ := List.cons.inj kept
        exact fun none => moves (.inl none)

theorem intercalate_ne_empty {names : List String} {last : String}
    (filled : last ≠ "") : "/".intercalate (names ++ [last]) ≠ "" := by
  intro none
  have chars := congrArg String.toList none
  rw [String.toList_intercalate, List.map_append, List.map_singleton] at chars
  cases names with
  | nil => exact filled (by simpa using chars)
  | cons first rest =>
      rw [List.map_cons, List.cons_append, List.intercalate_cons_of_ne_nil
        (by simp)] at chars
      simp at chars

/-- A path that ends in a name takes the steps of the path around it and then
one more. -/
theorem parent_spec {path : String} (named : ending path = .name) :
    (∃ last, steps path = steps (parent path) ++ [.down last]) ∧
      parent path ≠ "" ∧ ((parent path).toList <+: path.toList ∨
        parent path = "." ∧ isAbsolute path = false) := by
  obtain ⟨front, last, shape, step⟩ := segments_of_ending named
  obtain ⟨⟨idle, divided, still⟩, -⟩ := dropIdle_spec front.reverse
  have backwards : dropIdle (segments path).reverse =
      last :: front.reverse := by
    rw [shape, List.reverse_append, List.reverse_singleton,
      List.singleton_append, dropIdle_cons_of_step step]
  have whole : front = (dropIdle front.reverse).reverse ++ idle.reverse := by
    rw [← List.reverse_append, ← divided, List.reverse_reverse]
  have moved : steps path =
      (dropIdle front.reverse).reverse.filterMap step? ++ [.down last] := by
    have silent : idle.reverse.filterMap step? = [] := by
      rw [List.filterMap_reverse, still, List.reverse_nil]
    rw [steps, shape, List.filterMap_append, List.filterMap_cons_some step,
      List.filterMap_nil]
    conv_lhs =>
      rw [whole, List.filterMap_append, silent, List.append_nil]
  rw [moved]
  cases kept : dropIdle front.reverse with
  | nil =>
      have around : parent path = if isAbsolute path then "/" else "." := by
        simp only [parent, backwards, kept]
      rw [around]
      by_cases absolute : isAbsolute path
      · rw [if_pos absolute]
        refine ⟨⟨last, rfl⟩, by decide, .inl ?_⟩
        obtain ⟨rest, begins⟩ := List.head?_eq_some_iff.mp
          (eq_of_beq absolute)
        rw [begins]
        exact List.prefix_append ['/'] rest
      · rw [if_neg absolute]
        exact ⟨⟨last, rfl⟩, by decide,
          .inr ⟨rfl, Bool.not_eq_true _ ▸ absolute⟩⟩
  | cons first before =>
      have filled := head_dropIdle_ne kept
      have around : parent path =
          "/".intercalate (first :: before).reverse := by
        simp only [parent, backwards, kept]
      have spelled := intercalate_segments path
      rw [shape, whole, kept, List.append_assoc] at spelled
      have plain : ∀ segment ∈ (first :: before).reverse,
          '/' ∉ segment.toList := by
        intro segment member
        refine @plain_of_mem_segments path segment ?_
        rw [shape, whole, kept, List.append_assoc]
        exact List.mem_append_left _ member
      refine ⟨⟨last, ?_⟩, ?_, .inl ?_⟩
      · rw [around, steps, segments_intercalate (by simp) plain]
      · rw [around, List.reverse_cons]
        exact intercalate_ne_empty filled
      · rw [around, ← spelled, String.toList_intercalate,
          String.toList_intercalate, List.map_append]
        exact Text.intercalate_front (by simp) _

theorem fault?_parent {path : String} (named : ending path = .name)
    (accepted : fault? path = none) :
    fault? (parent path) = none ∧
      isAbsolute (parent path) = isAbsolute path := by
  obtain ⟨-, filled, ⟨rest, begins⟩ | ⟨dot, relative⟩⟩ := parent_spec named
  · have whole : path = parent path ++ String.ofList rest := by
      apply String.toList_injective
      rw [String.toList_append, String.toList_ofList, begins]
    have chars : (parent path).toList ≠ [] := by simpa using filled
    have size : (parent path).utf8ByteSize ≤ path.utf8ByteSize := by
      conv_rhs => rw [whole, String.utf8ByteSize_append]
      exact Nat.le_add_right ..
    constructor
    · unfold fault? at accepted ⊢
      rw [← begins] at accepted
      split at accepted
      · cases accepted
      · split at accepted
        · cases accepted
        · split at accepted
          · cases accepted
          · rename_i clean _ short
            have without : ¬ (parent path).toList.contains '\x00' := by
              intro member
              refine clean ?_
              simp only [List.contains_eq_mem, List.mem_append,
                decide_eq_true_eq] at member ⊢
              exact .inl member
            rw [if_neg without, if_neg (by simpa using filled),
              if_neg (by omega)]
    · rw [isAbsolute, isAbsolute, ← begins,
        List.head?_append_of_ne_nil _ chars]
  · rw [dot, relative]
    exact ⟨by decide, by decide⟩

end Path

namespace FileSystem

variable {system : FileSystem} {names found : List String} {path : String}
  {step : Path.Step} {rest : List Path.Step}

theorem follow_cons (directory : system.isDirectory names)
    (fits : step.Fits) :
    system.follow names (step :: rest) =
      system.follow (step.target names) rest := by
  cases step with
  | up =>
      rw [follow, if_pos directory]
      rfl
  | down name =>
      rw [follow, if_pos directory, if_neg (Nat.not_lt.mpr fits)]
      rfl

theorem of_follow_cons
    (leads : system.follow names (step :: rest) = .ok found) :
    system.isDirectory names ∧ step.Fits := by
  by_cases directory : system.isDirectory names
  · refine ⟨directory, ?_⟩
    cases step with
    | up => trivial
    | down name =>
        rw [follow, if_pos directory] at leads
        by_contra long
        rw [if_pos (Nat.not_le.mp long)] at leads
        cases leads
  · cases step <;> (rw [follow, if_neg directory] at leads; cases leads)

theorem follow_eq_walk {steps : List Path.Step}
    (leads : system.follow names steps = .ok found) :
    found = Path.walk names steps := by
  induction steps generalizing names with
  | nil => exact (Except.ok.inj leads).symm
  | cons step rest induction =>
      obtain ⟨directory, fits⟩ := of_follow_cons leads
      exact induction (follow_cons directory fits ▸ leads)

theorem follow_concat {front : List Path.Step}
    (leads : system.follow names (front ++ [step]) = .ok found) :
    ∃ place, system.follow names front = .ok place ∧
      system.isDirectory place ∧ found = step.target place := by
  induction front generalizing names with
  | nil =>
      obtain ⟨directory, fits⟩ := of_follow_cons leads
      rw [List.nil_append, follow_cons directory fits] at leads
      exact ⟨names, rfl, directory, (Except.ok.inj leads).symm⟩
  | cons first others induction =>
      obtain ⟨directory, fits⟩ := of_follow_cons leads
      rw [follow_cons directory fits]
      exact induction (follow_cons directory fits ▸ leads)

theorem follow_mono {after : FileSystem} {steps : List Path.Step}
    (kept : ∀ names, system.isDirectory names → after.isDirectory names)
    (leads : system.follow names steps = .ok found) :
    after.follow names steps = .ok found := by
  induction steps generalizing names with
  | nil => exact leads
  | cons step rest induction =>
      obtain ⟨directory, fits⟩ := of_follow_cons leads
      rw [follow_cons (kept names directory) fits]
      exact induction (follow_cons directory fits ▸ leads)

theorem follow_missing {after : FileSystem} {steps : List Path.Step}
    {fault : Fault}
    (files : ∀ names, after.isDirectory names → system.file? names = none)
    (leads : after.follow names steps = .ok found)
    (failed : system.follow names steps = .error fault) :
    fault = .missing := by
  induction steps generalizing names with
  | nil => cases failed
  | cons step rest induction =>
      obtain ⟨directory, fits⟩ := of_follow_cons leads
      rw [follow_cons directory fits] at leads
      by_cases here : system.isDirectory names
      · rw [follow_cons here fits] at failed
        exact induction leads failed
      · have absent : system.absence names = .missing := by
          rw [absence, files names directory]
          rfl
        rw [follow.eq_def] at failed
        dsimp only at failed
        rw [if_neg here, absent] at failed
        exact (Except.error.inj failed).symm

theorem resolve_eq_ok_iff :
    system.resolve path = .ok names ↔ Path.fault? path = none ∧
      system.follow (system.start path) (Path.steps path) = .ok names := by
  unfold resolve
  cases Path.fault? path <;> simp

theorem resolve_mono {after : FileSystem} (home : after.home = system.home)
    (kept : ∀ names, system.isDirectory names → after.isDirectory names)
    (leads : system.resolve path = .ok names) :
    after.resolve path = .ok names := by
  obtain ⟨accepted, follows⟩ := resolve_eq_ok_iff.mp leads
  refine resolve_eq_ok_iff.mpr ⟨accepted, ?_⟩
  rw [start, home]
  exact follow_mono kept follows

theorem resolve_concat (leads : system.resolve path = .ok names)
    (named : Path.ending path = .name) :
    ∃ place last, names = place ++ [last] ∧ system.isDirectory place := by
  obtain ⟨front, last, steps⟩ := Path.steps_of_ending named
  have follows := (resolve_eq_ok_iff.mp leads).2
  rw [steps] at follows
  obtain ⟨place, -, directory, rfl⟩ := follow_concat follows
  exact ⟨place, last, rfl, directory⟩

theorem resolve_parent (leads : system.resolve path = .ok names)
    (named : Path.ending path = .name) :
    ∃ place, system.resolve (Path.parent path) = .ok place ∧
      system.isDirectory place := by
  obtain ⟨accepted, follows⟩ := resolve_eq_ok_iff.mp leads
  obtain ⟨⟨last, steps⟩, -⟩ := Path.parent_spec named
  obtain ⟨fine, same⟩ := Path.fault?_parent named accepted
  rw [steps] at follows
  obtain ⟨place, before, directory, -⟩ := follow_concat follows
  refine ⟨place, resolve_eq_ok_iff.mpr ⟨fine, ?_⟩, directory⟩
  rw [start, same]
  exact before

theorem entryAt_eq_ok_iff {tree : Tree} :
    system.entryAt path = .ok tree ↔
      ∃ names, system.resolve path = .ok names ∧
        system.at? names = some tree ∧
        (tree.isFile → Path.ending path = .name) := by
  unfold entryAt
  cases leads : system.resolve path with
  | error fault => simp [bind, Except.bind]
  | ok names =>
      cases found : system.at? names with
      | none => simp [bind, Except.bind, throw, throwThe,
          MonadExceptOf.throw, found]
      | some inner =>
          cases inner with
          | directory entries =>
              simp [bind, Except.bind, pure, Except.pure, found]
              rintro rfl
              simp [Tree.isFile]
          | file content =>
              by_cases named : Path.ending path = .name
              · simp [bind, Except.bind, pure, Except.pure, found, named]
              · simp [bind, Except.bind, throw, throwThe,
                  MonadExceptOf.throw, found, named]
                rintro rfl
                simp [Tree.isFile]

theorem entryAt_eq_file_iff {content : ByteArray} :
    system.entryAt path = .ok (.file content) ↔
      ∃ names, system.resolve path = .ok names ∧
        system.file? names = some content ∧ Path.ending path = .name := by
  rw [entryAt_eq_ok_iff]
  simp only [file?_eq_some_iff, Tree.isFile, forall_const]
  refine exists_congr fun names => and_congr_right fun _ =>
    and_congr_left fun _ => ?_
  unfold kindAt Tree.kind? at?
  rcases system.root.at? names with _ | ⟨_⟩ | ⟨_⟩ <;> simp [Tree.kind]

theorem hasDirectory_iff :
    system.hasDirectory path ↔
      ∃ names, system.resolve path = .ok names ∧
        system.isDirectory names := by
  have shape : system.hasDirectory path ↔
      ∃ entries, system.entryAt path = .ok (.directory entries) := by
    unfold hasDirectory
    rcases system.entryAt path with _ | ⟨_⟩ | ⟨_⟩ <;> simp
  rw [shape]
  simp only [entryAt_eq_ok_iff, isDirectory_iff, kindAt, Tree.kind?, at?]
  constructor
  · rintro ⟨entries, names, leads, found, -⟩
    exact ⟨names, leads, by rw [found]; rfl⟩
  · rintro ⟨names, leads, directory⟩
    obtain ⟨tree, found, kind⟩ := Option.map_eq_some_iff.mp directory
    obtain ⟨entries, rfl⟩ := Tree.kind_eq_directory.mp kind
    exact ⟨entries, names, leads, found, by simp [Tree.isFile]⟩

end FileSystem

end Stencil
