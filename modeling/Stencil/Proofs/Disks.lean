import Stencil.Proofs.Creation
import Stencil.Proofs.Numbering

namespace Stencil

/-! What is taken for granted of a disk. Every request can be refused for any
reason, but a request that only reads changes nothing, directories are only
created where nothing is, and temporary files are no concern of other files. -/

/-- Temporary files at some places. One that is created is new, only its own
content is written, it is moved as a whole or not at all, and it is gone once
it is dropped. -/
structure TemporaryFiles.Lawful {Handle : Type}
    (files : TemporaryFiles Handle (StateM FileSystem))
    (place : Handle → List String) : Prop where
  create_ok : ∀ {directory : String} {handle : Handle}
      {system after : FileSystem},
    system.perform (files.create directory) = (.ok handle, after) →
      place handle ≠ [] ∧ system.isDirectory (place handle).dropLast ∧
        system.at? (place handle) = none ∧
        ∃ content, after = system.put (place handle) (.file content)
  create_error : ∀ {directory : String} {fault : Fault}
      {system after : FileSystem},
    system.perform (files.create directory) = (.error fault, after) →
      after = system
  fill_ok : ∀ {handle : Handle} {content : ByteArray}
      {system after : FileSystem},
    system.file? (place handle) ≠ none →
    system.perform (files.fill handle content) = (.ok (), after) →
      after = system.put (place handle) (.file content)
  fill_error : ∀ {handle : Handle} {content : ByteArray}
      {fault : Fault} {system after : FileSystem},
    system.file? (place handle) ≠ none →
    system.perform (files.fill handle content) = (.error fault, after) →
      ∃ written, after = system.put (place handle) (.file written)
  persist_ok : ∀ {handle : Handle} {path : String}
      {system after : FileSystem},
    system.perform (files.persist handle path) = (.ok (), after) →
      system.move (place handle) path = .ok after
  persist_error : ∀ {handle : Handle} {path : String}
      {fault : Fault} {system after : FileSystem},
    system.perform (files.persist handle path) = (.error fault, after) →
      after = system
  drop : ∀ {handle : Handle} {system : FileSystem},
    (system.perform (files.drop handle)).2 = system.discard (place handle)

structure Disk.Lawful {Handle : Type}
    (disk : Disk Handle (StateM FileSystem)) : Prop where
  isDirectory : ∀ (path : String) (system : FileSystem),
    (system.perform (disk.isDirectory path)).2 = system
  walk : ∀ (path : String) (system : FileSystem),
    (system.perform (disk.walk path)).2 = system
  read : ∀ (path : String) (system : FileSystem),
    (system.perform (disk.read path)).2 = system
  createDirectories : ∀ (path : String) (system : FileSystem),
    system.Grown (system.perform (disk.createDirectories path)).2
      (Path.Passes (system.start path) (Path.steps path))
  temporary : ∃ place, disk.temporary.Lawful place

namespace FileSystem

variable {system : FileSystem} {directory : String} {names : List String}

theorem isEntry_temporaryName (number : Nat) :
    Path.IsEntry (temporaryName number) := by
  have chars : (temporaryName number).toList =
      ['.', 't', 'm', 'p'] ++ (toString (100000 + number)).toList := by
    rw [temporaryName, String.toList_append]
    rfl
  have plain : '/' ∉ (temporaryName number).toList := by
    rw [chars, List.mem_append, not_or]
    refine ⟨by decide, fun member => ?_⟩
    exact absurd (Text.isDigit_of_toString _ _ member) (by decide)
  have long (other : String) (short : other.toList.length < 4) :
      temporaryName number ≠ other := by
    intro same
    rw [← same, chars, List.length_append] at short
    exact absurd short (by simp)
  exact ⟨long "" (by decide), plain, long "." (by decide),
    long ".." (by decide)⟩

theorem freeIn_eq_ok {candidates : List String}
    (named : ∀ name ∈ candidates, ∃ number, name = temporaryName number)
    (free : system.freeIn directory candidates = .ok names) :
    names ≠ [] ∧ system.isDirectory names.dropLast ∧
      system.at? names = none := by
  induction candidates with
  | nil => cases free
  | cons name others induction =>
      rw [freeIn] at free
      cases leads : system.resolve (Path.join directory name) with
      | error fault =>
          rw [leads] at free
          cases free
      | ok place =>
          simp only [leads, bind, Except.bind, pure, Except.pure] at free
          split at free
          case isTrue =>
            exact induction
              (fun other member => named other (List.mem_cons_of_mem _ member))
              free
          case isFalse absent =>
            obtain rfl := Except.ok.inj free
            obtain ⟨number, rfl⟩ := named name List.mem_cons_self
            have follows := (resolve_eq_ok_iff.mp leads).2
            rw [Path.steps_join,
              Path.steps_of_isEntry (isEntry_temporaryName number)] at follows
            obtain ⟨around, -, present, rfl⟩ := follow_concat follows
            refine ⟨by simp [Path.Step.target], ?_,
              Option.not_isSome_iff_eq_none.mp absent⟩
            rwa [Path.Step.target, List.dropLast_concat]

theorem named_temporaryNames :
    ∀ name ∈ temporaryNames, ∃ number, name = temporaryName number := by
  intro name member
  obtain ⟨number, -, rfl⟩ := List.mem_map.mp member
  exact ⟨number, rfl⟩

theorem perform_modifyGet {α : Type} (system : FileSystem)
    (step : FileSystem → α × FileSystem) :
    system.perform (modifyGet step) = step system :=
  rfl

theorem create_temporaryFiles (directory : String) :
    temporaryFiles.create directory = modifyGet (createTemporary · directory) :=
  rfl

theorem persist_temporaryFiles (names : List String) (path : String) :
    temporaryFiles.persist names path =
      modifyGet (persistTemporary · names path) :=
  rfl

theorem temporaryFiles_lawful : temporaryFiles.Lawful id where
  create_ok {directory handle system after} made := by
    rw [create_temporaryFiles, perform_modifyGet] at made
    unfold createTemporary at made
    split at made
    · cases made
    · rename_i names free
      obtain ⟨same, rfl⟩ := Prod.mk.inj made
      obtain rfl := Except.ok.inj same
      obtain ⟨more, around, absent⟩ := freeIn_eq_ok named_temporaryNames free
      exact ⟨more, around, absent, _, rfl⟩
  create_error {directory fault system after} failed := by
    rw [create_temporaryFiles, perform_modifyGet] at failed
    unfold createTemporary at failed
    split at failed
    · exact (Prod.mk.inj failed).2.symm
    · cases failed
  fill_ok _ filled := (Prod.mk.inj filled).2.symm
  fill_error _ failed := by cases failed
  persist_ok {handle path system after} moved := by
    rw [persist_temporaryFiles, perform_modifyGet] at moved
    unfold persistTemporary at moved
    split at moved
    · cases moved
    · rename_i written result
      rw [id, result, (Prod.mk.inj moved).2]
  persist_error {handle path fault system after} failed := by
    rw [persist_temporaryFiles, perform_modifyGet] at failed
    unfold persistTemporary at failed
    split at failed
    · exact (Prod.mk.inj failed).2.symm
    · cases failed
  drop := rfl

/-! How programs that can fail run. -/

section Runs

variable {ε α β : Type} {system middle : FileSystem} {value : α} {error : ε}
  {steps : ExceptT ε (StateM FileSystem) α}
  {next : α → ExceptT ε (StateM FileSystem) β}

theorem perform_bind_ok
    (done : system.perform steps.run = (.ok value, middle)) :
    system.perform (steps >>= next).run = middle.perform (next value).run := by
  unfold perform at done ⊢
  simp only [ExceptT.run_bind, StateT.run_bind, done]
  rfl

theorem perform_bind_error
    (failed : system.perform steps.run = (.error error, middle)) :
    system.perform (steps >>= next).run = (.error error, middle) := by
  unfold perform at failed ⊢
  simp only [ExceptT.run_bind, StateT.run_bind, failed]
  rfl

theorem perform_ofExcept (result : Except ε α) :
    system.perform (MonadExcept.ofExcept result :
      ExceptT ε (StateM FileSystem) α).run = (result, system) := by
  cases result <;> rfl

theorem perform_tryCatch_ok {other : ε → ExceptT ε (StateM FileSystem) α}
    (done : system.perform steps.run = (.ok value, middle)) :
    system.perform (tryCatch steps other).run = (.ok value, middle) := by
  unfold perform at done ⊢
  simp only [tryCatch, tryCatchThe, MonadExceptOf.tryCatch,
    ExceptT.tryCatch, ExceptT.run_mk, StateT.run_bind]
  rw [show StateT.run steps system = _ from done]
  rfl

theorem perform_tryCatch_error {other : ε → ExceptT ε (StateM FileSystem) α}
    (failed : system.perform steps.run = (.error error, middle)) :
    system.perform (tryCatch steps other).run =
      middle.perform (other error).run := by
  unfold perform at failed ⊢
  simp only [tryCatch, tryCatchThe, MonadExceptOf.tryCatch,
    ExceptT.tryCatch, ExceptT.run_mk, StateT.run_bind]
  rw [show StateT.run steps system = _ from failed]
  rfl

def Quiet (steps : ExceptT ε (StateM FileSystem) α) : Prop :=
  ∀ system : FileSystem, (system.perform steps.run).2 = system

theorem Quiet.bind (first : Quiet steps)
    (second : ∀ value, Quiet (next value)) : Quiet (steps >>= next) := by
  intro system
  have same := first system
  cases performed : system.perform steps.run with
  | mk result middle =>
      rw [performed] at same
      obtain rfl : middle = system := same
      cases result with
      | error error => rw [perform_bind_error performed]
      | ok value =>
          rw [perform_bind_ok performed]
          exact second value middle

theorem quiet_ofExcept (result : Except ε α) :
    Quiet (MonadExcept.ofExcept result :
      ExceptT ε (StateM FileSystem) α) := by
  intro system
  rw [perform_ofExcept]

theorem quiet_mapM {step : α → ExceptT ε (StateM FileSystem) β}
    (quiet : ∀ value, Quiet (step value)) (values : List α) :
    Quiet (values.mapM step) := by
  induction values with
  | nil => exact fun system => rfl
  | cons value others induction =>
      rw [List.mapM_cons]
      exact (quiet value).bind fun _ => induction.bind fun _ system => rfl

end Runs

theorem disk_lawful : disk.Lawful where
  isDirectory _ _ := rfl
  walk _ _ := rfl
  read _ _ := rfl
  createDirectories path system := grown_createDirectories system path
  temporary := ⟨id, temporaryFiles_lawful⟩

end FileSystem

end Stencil
