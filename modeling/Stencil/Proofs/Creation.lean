import Stencil.Proofs.Places

namespace Stencil

/-! Creating directories leaves what is there. A directory is only created where
nothing is, so whatever a path led to it leads to still. A file is put at one
place and changes nothing elsewhere. -/

namespace Path

/-- Some steps from a place lead through another, or to it. -/
def Passes (names : List String) (steps : List Step) (place : List String) :
    Prop :=
  ∃ front, front <+: steps ∧ place = walk names front

theorem Passes.cons {names place : List String} {rest : List Step}
    (step : Step) (passes : Passes (step.target names) rest place) :
    Passes names (step :: rest) place := by
  obtain ⟨front, inside, rfl⟩ := passes
  exact ⟨step :: front, List.cons_prefix_cons.mpr ⟨rfl, inside⟩, rfl⟩

end Path

namespace FileSystem

def contentAt? (system : FileSystem) (path : String) : Option ByteArray :=
  match system.entryAt path with
  | .ok (.file content) => some content
  | _ => none

variable {system middle after : FileSystem} {names : List String}
  {path : String} {content : ByteArray}

theorem contentAt?_eq_some_iff :
    system.contentAt? path = some content ↔
      ∃ names, system.resolve path = .ok names ∧
        system.file? names = some content ∧ Path.ending path = .name := by
  rw [← entryAt_eq_file_iff]
  unfold contentAt?
  split <;> simp_all

theorem file?_of_isDirectory (directory : system.isDirectory names) :
    system.file? names = none := by
  by_contra stored
  obtain ⟨content, found⟩ := Option.ne_none_iff_exists'.mp stored
  rw [file?_eq_some_iff, isDirectory_iff.mp directory] at found
  cases found

/-- All that has changed is that there are directories at some places. -/
structure Grown (system after : FileSystem) (new : List String → Prop) :
    Prop where
  home : after.home = system.home
  files : ∀ names, after.file? names = system.file? names
  kept : ∀ names, system.isDirectory names → after.isDirectory names
  new : ∀ names, after.isDirectory names →
    system.isDirectory names ∨ new names

namespace Grown

variable {new later : List String → Prop}

theorem refl (system : FileSystem) (new : List String → Prop) :
    system.Grown system new :=
  ⟨rfl, fun _ => rfl, fun _ => id, fun _ => .inl⟩

theorem trans (first : system.Grown middle new)
    (second : middle.Grown after new) : system.Grown after new := by
  refine ⟨second.home.trans first.home,
    fun names => (second.files names).trans (first.files names),
    fun names old => second.kept names (first.kept names old),
    fun names directory => ?_⟩
  exact (second.new names directory).elim (first.new names) .inr

theorem mono (grown : system.Grown after new)
    (weaker : ∀ names, new names → later names) :
    system.Grown after later :=
  ⟨grown.home, grown.files, grown.kept,
    fun names directory => (grown.new names directory).imp_right (weaker names)⟩

theorem contentAt?_of_some (grown : system.Grown after new)
    (present : system.contentAt? path = some content) :
    after.contentAt? path = some content := by
  obtain ⟨names, leads, stored, named⟩ := contentAt?_eq_some_iff.mp present
  exact contentAt?_eq_some_iff.mpr ⟨names,
    resolve_mono grown.home grown.kept leads,
    (grown.files names).trans stored, named⟩

/-- A path that leads to a file now led there before, or to nothing because a
directory on its way was missing. -/
theorem contentAt?_cases (grown : system.Grown after new) (path : String) :
    after.contentAt? path = system.contentAt? path ∨
      system.resolve path = .error .missing ∧
        ∃ names content, system.file? names = some content ∧
          after.resolve path = .ok names ∧
          after.contentAt? path = some content := by
  cases present : after.contentAt? path with
  | none =>
      left
      cases before : system.contentAt? path with
      | none => rfl
      | some content =>
          rw [grown.contentAt?_of_some before] at present
          cases present
  | some content =>
      obtain ⟨names, leads, stored, named⟩ :=
        contentAt?_eq_some_iff.mp present
      rw [grown.files] at stored
      cases before : system.resolve path with
      | ok place =>
          left
          have same := resolve_mono grown.home grown.kept before
          rw [leads] at same
          obtain rfl := Except.ok.inj same
          exact (contentAt?_eq_some_iff.mpr
            ⟨names, before, stored, named⟩).symm
      | error fault =>
          right
          obtain ⟨accepted, follows⟩ := resolve_eq_ok_iff.mp leads
          unfold resolve at before
          rw [accepted] at before
          rw [start, grown.home] at follows
          have free : ∀ names, after.isDirectory names →
              system.file? names = none := by
            intro names directory
            rw [← grown.files, file?_of_isDirectory directory]
          obtain rfl := follow_missing free follows before
          exact ⟨rfl, names, content, stored, leads, rfl⟩

end Grown

theorem kindAt_append_of_not_directory {back : List String}
    (plain : system.isDirectory names = false) (more : back ≠ []) :
    system.kindAt (names ++ back) = none := by
  by_contra found
  rw [isDirectory_around more found] at plain
  cases plain

theorem kindAt_of_ne
    (apart : ∀ other, ¬ names <+: other →
      after.kindAt other = system.kindAt other)
    (below : ∀ back, back ≠ [] →
      after.kindAt (names ++ back) = system.kindAt (names ++ back))
    {other : List String} (different : other ≠ names) :
    after.kindAt other = system.kindAt other := by
  by_cases inside : names <+: other
  · obtain ⟨back, rfl⟩ := inside
    refine below back ?_
    rintro rfl
    exact different (List.append_nil _)
  · exact apart other inside

theorem grown_put_empty {name : String}
    (directory : system.isDirectory names)
    (free : system.kindAt (names ++ [name]) = none) :
    system.Grown (system.put (names ++ [name]) .empty)
      fun place => place = names ++ [name] := by
  have around : system.isDirectory (names ++ [name]).dropLast := by
    rwa [List.dropLast_concat]
  have kinds := @kindAt_put system _ Tree.empty (by simp) around
  have plain := (kindAt_eq_none_iff.mp free).1
  have same : ∀ other, other ≠ names ++ [name] →
      (system.put (names ++ [name]) .empty).kindAt other =
        system.kindAt other := by
    refine fun other => kindAt_of_ne (fun other apart => ?_)
      fun back more => ?_
    · rw [kinds, if_neg apart]
    · rw [kindAt_append_of_not_directory plain more, kinds,
        if_pos (List.prefix_append ..), List.drop_left]
      obtain ⟨first, rest, rfl⟩ := List.exists_cons_of_ne_nil more
      rfl
  have here : (system.put (names ++ [name]) .empty).kindAt
      (names ++ [name]) = some .directory := by
    rw [kinds, if_pos (List.prefix_refl _), List.drop_length]
    rfl
  refine ⟨rfl, fun other => ?_, fun other old => ?_, fun other new => ?_⟩
  · by_cases different : other = names ++ [name]
    · subst different
      rw [(kindAt_eq_none_iff.mp free).2,
        file?_of_isDirectory (isDirectory_iff.mpr here)]
    · exact file?_congr (same other different)
  · by_cases different : other = names ++ [name]
    · exact isDirectory_iff.mpr (different ▸ here)
    · rwa [isDirectory_congr (same other different)]
  · by_cases different : other = names ++ [name]
    · exact .inr different
    · rw [isDirectory_congr (same other different)] at new
      exact .inl new

theorem createAlong_down (system : FileSystem) (names : List String)
    (begun : Bool) (name : String) (rest : List Path.Step) :
    (∃ fault, system.createAlong names begun (.down name :: rest) =
        (.error fault, system)) ∨
    (system.isDirectory (names ++ [name]) ∧
      system.createAlong names begun (.down name :: rest) =
        system.createAlong (names ++ [name]) begun rest) ∨
    (system.kindAt (names ++ [name]) = none ∧
      system.createAlong names begun (.down name :: rest) =
        (system.put (names ++ [name]) .empty).createAlong (names ++ [name])
          true rest) := by
  simp only [createAlong]
  split
  case isTrue => exact .inl ⟨_, rfl⟩
  case isFalse =>
    split
    case isTrue directory => exact .inr (.inl ⟨directory, rfl⟩)
    case isFalse plain =>
      split
      case isTrue => exact .inl ⟨_, rfl⟩
      case isFalse free =>
        refine .inr (.inr ⟨kindAt_eq_none_iff.mpr ⟨?_, ?_⟩, rfl⟩)
        · exact Bool.not_eq_true _ ▸ plain
        · exact Option.not_isSome_iff_eq_none.mp free

theorem grown_createAlong {begun : Bool} {steps : List Path.Step}
    (directory : system.isDirectory names) :
    system.Grown (system.createAlong names begun steps).2
      (Path.Passes names steps) := by
  induction steps generalizing system names begun with
  | nil => exact Grown.refl system _
  | cons step rest induction =>
      cases step with
      | up =>
          exact (induction (isDirectory_dropLast directory)).mono
            fun place passes => passes.cons .up
      | down name =>
          obtain ⟨fault, failed⟩ | ⟨inside, onward⟩ | ⟨free, onward⟩ :=
            createAlong_down system names begun name rest
          · rw [failed]
            exact Grown.refl system _
          · rw [onward]
            exact (induction inside).mono
              fun place passes => passes.cons (.down name)
          · rw [onward]
            have grown := grown_put_empty directory free
            have inside : (system.put (names ++ [name]) .empty).isDirectory
                (names ++ [name]) := by
              rw [isDirectory_iff, kindAt_put (by simp)
                (by rwa [List.dropLast_concat]), if_pos (List.prefix_refl _),
                List.drop_length]
              rfl
            refine (grown.mono ?_).trans ((induction inside).mono
              fun place passes => passes.cons (.down name))
            rintro place rfl
            exact ⟨[.down name], by simp, rfl⟩

theorem grown_createDirectories (system : FileSystem) (path : String) :
    system.Grown (system.createDirectories path).2
      (Path.Passes (system.start path) (Path.steps path)) := by
  unfold createDirectories
  split
  · exact Grown.refl system _
  · split
    · exact grown_createAlong ‹_›
    · exact Grown.refl system _

/-- Nothing has changed but at one place, where there is no directory. -/
structure Beside (system after : FileSystem) (names : List String) :
    Prop where
  home : after.home = system.home
  files : ∀ other, other ≠ names → after.file? other = system.file? other
  directories : ∀ other, after.isDirectory other = system.isDirectory other

theorem Beside.trans (first : system.Beside middle names)
    (second : middle.Beside after names) : system.Beside after names :=
  ⟨second.home.trans first.home,
    fun other different =>
      (second.files other different).trans (first.files other different),
    fun other => (second.directories other).trans (first.directories other)⟩

theorem Beside.grown (beside : system.Beside after names)
    (same : after.file? names = system.file? names)
    (new : List String → Prop) : system.Grown after new := by
  refine ⟨beside.home, fun other => ?_, fun other old => ?_,
    fun other old => .inl ?_⟩
  · by_cases here : other = names
    · exact here ▸ same
    · exact beside.files other here
  · rwa [beside.directories]
  · rwa [beside.directories] at old

theorem beside_of_kinds {after : FileSystem} (home : after.home = system.home)
    (plain : system.isDirectory names = false)
    (stays : after.isDirectory names = false)
    (kinds : ∀ other, ¬ names <+: other →
      after.kindAt other = system.kindAt other) :
    system.Beside after names := by
  have same : ∀ other, other ≠ names →
      after.kindAt other = system.kindAt other := by
    refine fun other => kindAt_of_ne kinds fun back more => ?_
    rw [kindAt_append_of_not_directory plain more,
      kindAt_append_of_not_directory stays more]
  refine ⟨home, fun other different => file?_congr (same other different),
    fun other => ?_⟩
  by_cases here : other = names
  · rw [here, plain, stays]
  · exact isDirectory_congr (same other here)

section Put

variable (more : names ≠ []) (around : system.isDirectory names.dropLast)
include more around

theorem file?_put_self :
    (system.put names (.file content)).file? names = some content := by
  rw [file?_eq_some_iff, kindAt_put more around,
    if_pos (List.prefix_refl _), List.drop_length]
  rfl

theorem beside_put (plain : system.isDirectory names = false) :
    system.Beside (system.put names (.file content)) names := by
  refine beside_of_kinds rfl plain ?_ fun other below => ?_
  · rw [not_isDirectory_iff,
      file?_eq_some_iff.mp (file?_put_self more around)]
    simp
  · rw [kindAt_put more around, if_neg below]

end Put

theorem file?_discard_self (more : names ≠ []) :
    (system.discard names).file? names = none := by
  refine (kindAt_eq_none_iff.mp ?_).2
  rw [kindAt_discard more, if_pos (List.prefix_refl _)]

theorem beside_discard (more : names ≠ [])
    (plain : system.isDirectory names = false) :
    system.Beside (system.discard names) names := by
  refine beside_of_kinds rfl plain ?_ fun other below => ?_
  · rw [not_isDirectory_iff, kindAt_discard more,
      if_pos (List.prefix_refl _)]
    simp
  · rw [kindAt_discard more, if_neg below]

theorem store_eq_ok_iff :
    system.store path content = .ok after ↔
      ∃ names, system.resolve path = .ok names ∧
        Path.ending path = .name ∧ system.isDirectory names = false ∧
        after = system.put names (.file content) := by
  unfold store
  cases leads : system.resolve path with
  | error fault => simp [bind, Except.bind]
  | ok names =>
      cases ending : Path.ending path <;>
        cases directory : system.isDirectory names <;>
        simp [directory, bind, Except.bind, pure, Except.pure, throw,
          throwThe, MonadExceptOf.throw]
      exact eq_comm

theorem textAt_of_contentAt? {text : String}
    (present : system.contentAt? path = some text.toUTF8) :
    system.textAt path = .ok text := by
  have entry := entryAt_eq_file_iff.mpr (contentAt?_eq_some_iff.mp present)
  have read : String.fromUTF8? text.toUTF8 = some text := by
    unfold String.fromUTF8?
    rw [String.toUTF8_eq_toByteArray, dif_pos text.isValidUTF8]
    rfl
  unfold textAt
  rw [entry]
  dsimp only
  rw [read]

end FileSystem

end Stencil
