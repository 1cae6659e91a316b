import Stencil.Command
import Stencil.Proofs.Disks

namespace Stencil

/-! A build leaves every file as it was, or it writes its output and leaves
every other file. The disk can refuse whatever is asked of it. -/

namespace Build

open FileSystem

variable {Handle : Type} {disk : Disk Handle (StateM FileSystem)}
  {system ready after : FileSystem} {output text : String}

section Asking

variable {α : Type} {answer : StateM FileSystem (Except Fault α)} {value : α}
  {fault : Fault}

theorem perform_ask_ok (action : Action) (path : String)
    (done : system.perform answer = (.ok value, after)) :
    system.perform (ask action path answer).run = (.ok value, after) := by
  unfold perform at done ⊢
  simp [ask, done]
  rfl

theorem perform_ask_error (action : Action) (path : String)
    (failed : system.perform answer = (.error fault, after)) :
    system.perform (ask action path answer).run =
      (.error (.file action path fault), after) := by
  unfold perform at failed ⊢
  simp [ask, failed]
  rfl

theorem quiet_ask (action : Action) (path : String)
    (same : ∀ system : FileSystem, (system.perform answer).2 = system) :
    Quiet (ask action path answer) := by
  intro system
  have here := same system
  cases performed : system.perform answer with
  | mk result middle =>
      rw [performed] at here
      cases result with
      | error fault => rwa [perform_ask_error action path performed]
      | ok value => rwa [perform_ask_ok action path performed]

end Asking

theorem quiet_check (lawful : disk.Lawful) (config : Config) :
    Quiet (check disk config) := by
  have answered : Quiet (liftM (disk.isDirectory config.input) :
      ExceptT Failure (StateM FileSystem) Bool) :=
    lawful.isDirectory config.input
  unfold check
  split
  · exact fun system => rfl
  · refine answered.bind fun present => ?_
    split
    · exact fun system => rfl
    · exact fun system => rfl

theorem quiet_collect (lawful : disk.Lawful) (input : String) :
    Quiet (collect disk input) := by
  have answered : Quiet (liftM (disk.walk input) :
      ExceptT Failure (StateM FileSystem) _) :=
    lawful.walk input
  exact answered.bind fun walked =>
    (quiet_ofExcept _).bind fun paths system => rfl

theorem perform_collect {input : String}
    {walk : List (Except Obstacle Visit)}
    (walked : system.perform (disk.walk input) = (walk, after)) :
    system.perform (collect disk input).run =
      ((walk.foldlM (gather input) []).map (·.mergeSort Path.precedes),
        after) := by
  have lifted : system.perform (liftM (disk.walk input) :
      ExceptT Failure (StateM FileSystem) _).run = (.ok walk, after) :=
    congrArg (fun answer => (Except.ok answer.1, answer.2)) walked
  refine (perform_bind_ok lifted).trans ?_
  have settled := @perform_ofExcept _ _ after (walk.foldlM (gather input) [])
  cases gathered : walk.foldlM (gather input) [] with
  | error failure =>
      rw [gathered] at settled
      exact perform_bind_error settled
  | ok paths =>
      rw [gathered] at settled
      exact perform_bind_ok settled

theorem quiet_render (lawful : disk.Lawful) (config : Config) :
    Quiet (render disk config) := by
  have read (path : String) : Quiet (readTemplate disk config.input path) :=
    (quiet_ask .read path (lawful.read path)).bind fun text system => rfl
  exact (quiet_collect lawful config.input).bind fun paths =>
    (quiet_mapM read paths).bind fun files =>
    (quiet_ofExcept _).bind fun parsed =>
    (quiet_ofExcept _).bind fun generated system => rfl

/-- What a build that fails to write leaves. Directories on the way to the
output can be new, and nothing else is. A path that led to a file leads to it
still. The output can lead to a file that it did not lead to before, if it goes
through a directory that was missing. -/
structure Unwritten (system after : FileSystem) (output : String) :
    Prop where
  grown : system.Grown after (Path.Passes
    (system.start (Path.parent output)) (Path.steps (Path.parent output)))
  contents : ∀ path content, system.contentAt? path = some content →
    after.contentAt? path = some content
  output : after.contentAt? output = system.contentAt? output ∨
    system.resolve output = .error .missing ∧
    after.hasDirectory (Path.parent output) ∧
    ∃ names content, after.resolve output = .ok names ∧
      system.file? names = some content ∧
      after.contentAt? output = some content

/-- What a build that succeeds leaves: the text at the output, and every other
file as it was. -/
structure Written (system after : FileSystem) (output text : String) :
    Prop where
  reads : after.textAt output = .ok text
  home : after.home = system.home
  place : ∃ names, after.resolve output = .ok names ∧
    after.file? names = some text.toUTF8 ∧
    (∀ other, other ≠ names → after.file? other = system.file? other) ∧
    ∀ path content, system.contentAt? path = some content →
      system.resolve path ≠ .ok names →
      after.contentAt? path = some content
  kept : ∀ names, system.isDirectory names → after.isDirectory names
  new : ∀ names, after.isDirectory names → system.isDirectory names ∨
    Path.Passes (system.start (Path.parent output))
      (Path.steps (Path.parent output)) names

/-- Files at a place of their own leave all others as they are. -/
structure Drafted (ready system : FileSystem) (place : List String) :
    Prop where
  more : place ≠ []
  around : ready.isDirectory place.dropLast
  free : ready.at? place = none
  beside : ready.Beside system place
  present : system.file? place ≠ none

namespace Drafted

variable {place : List String}

theorem plain (drafted : Drafted ready system place) :
    system.isDirectory place = false := by
  rw [drafted.beside.directories, isDirectory, drafted.free]

theorem around_of (drafted : Drafted ready system place) :
    system.isDirectory place.dropLast := by
  rw [drafted.beside.directories]
  exact drafted.around

theorem create (content : ByteArray) (more : place ≠ [])
    (around : ready.isDirectory place.dropLast)
    (free : ready.at? place = none) :
    Drafted ready (ready.put place (.file content)) place := by
  have plain : ready.isDirectory place = false := by
    rw [isDirectory, free]
  refine ⟨more, around, free, beside_put more around plain, ?_⟩
  rw [file?_put_self more around]
  exact Option.some_ne_none content

theorem put (drafted : Drafted ready system place) (content : ByteArray) :
    Drafted ready (system.put place (.file content)) place := by
  refine ⟨drafted.more, drafted.around, drafted.free,
    drafted.beside.trans (beside_put drafted.more drafted.around_of
      drafted.plain), ?_⟩
  rw [file?_put_self drafted.more drafted.around_of]
  exact Option.some_ne_none content

theorem discard (drafted : Drafted ready system place)
    (new : List String → Prop) :
    ready.Grown (system.discard place) new := by
  have beside := drafted.beside.trans
    (beside_discard drafted.more drafted.plain)
  refine beside.grown ?_ new
  rw [file?_discard_self drafted.more, file?, drafted.free]

end Drafted

section Temporary

variable {handle : Handle} {place : Handle → List String}
  (files : disk.temporary.Lawful place)
include files

theorem perform_fill_persist (drafted : Drafted ready system (place handle))
    (output text : String) :
    (∃ failure after,
      system.perform (do
        ask .fill output (disk.temporary.fill handle text.toUTF8)
        ask .write output (disk.temporary.persist handle output) :
          ExceptT Failure (StateM FileSystem) Unit).run =
        (.error failure, after) ∧
      Drafted ready after (place handle)) ∨
    ∃ written after,
      system.perform (do
        ask .fill output (disk.temporary.fill handle text.toUTF8)
        ask .write output (disk.temporary.persist handle output) :
          ExceptT Failure (StateM FileSystem) Unit).run = (.ok (), after) ∧
      Drafted ready written (place handle) ∧
      written.file? (place handle) = some text.toUTF8 ∧
      written.move (place handle) output = .ok after := by
  cases filled : system.perform
      (disk.temporary.fill handle text.toUTF8) with
  | mk result written =>
      cases result with
      | error fault =>
          obtain ⟨part, rfl⟩ := files.fill_error drafted.present filled
          rw [perform_bind_error (perform_ask_error .fill output filled)]
          exact .inl ⟨_, _, rfl, drafted.put part⟩
      | ok =>
          rw [perform_bind_ok (perform_ask_ok .fill output filled)]
          obtain rfl := files.fill_ok drafted.present filled
          have whole := drafted.put text.toUTF8
          have holds := @file?_put_self system _ text.toUTF8 drafted.more
            drafted.around_of
          generalize system.put (place handle) (.file text.toUTF8) = written
            at whole holds
          cases moved : written.perform
              (disk.temporary.persist handle output) with
          | mk result after =>
              cases result with
              | error fault =>
                  obtain rfl := files.persist_error moved
                  rw [perform_ask_error .write output moved]
                  exact .inl ⟨_, _, rfl, whole⟩
              | ok =>
                  rw [perform_ask_ok .write output moved]
                  exact .inr ⟨written, after, rfl, whole, holds,
                    files.persist_ok moved⟩

theorem perform_drop {steps : ExceptT Failure (StateM FileSystem) Unit}
    {failure : Failure} (drafted : Drafted ready after (place handle))
    (failed : system.perform steps.run = (.error failure, after)) :
    ∃ left, system.perform (tryCatch steps fun failure => do
        disk.temporary.drop handle
        throw failure).run = (.error failure, left) ∧
      ∀ new, ready.Grown left new := by
  refine ⟨after.discard (place handle), ?_, drafted.discard⟩
  rw [perform_tryCatch_error failed, ← files.drop]
  rfl

end Temporary

/-- What publishing does once the directories are there: it fails with nothing
done, or it stores the text. -/
theorem perform_publish (lawful : disk.Lawful) (text : String)
    (created : system.perform
      (disk.createDirectories (Path.parent output)) = (.ok (), ready)) :
    (∃ failure after,
      system.perform (publish disk output text).run = (.error failure, after) ∧
      ∀ new, ready.Grown after new) ∨
    ∃ cleared after,
      system.perform (publish disk output text).run = (.ok (), after) ∧
      (∀ new, ready.Grown cleared new) ∧
      cleared.store output text.toUTF8 = .ok after := by
  obtain ⟨place, files⟩ := lawful.temporary
  unfold publish
  rw [perform_bind_ok (perform_ask_ok .createDirectory _ created)]
  cases made : ready.perform (disk.temporary.create (Path.parent output)) with
  | mk result drafted =>
      cases result with
      | error fault =>
          obtain rfl := files.create_error made
          rw [perform_bind_error (perform_ask_error .createTemporary _ made)]
          exact .inl ⟨_, _, rfl, Grown.refl drafted⟩
      | ok handle =>
          rw [perform_bind_ok (perform_ask_ok .createTemporary _ made)]
          obtain ⟨more, around, free, content, rfl⟩ := files.create_ok made
          have draft := Drafted.create content more around free
          obtain ⟨failure, left, failed, still⟩ |
              ⟨written, after, done, whole, holds, moved⟩ :=
            perform_fill_persist files draft output text
          · obtain ⟨cleared, ended, grown⟩ := perform_drop files still failed
            exact .inl ⟨failure, cleared, ended, grown⟩
          · refine .inr ⟨written.discard (place handle), after,
              perform_tryCatch_ok done, whole.discard, ?_⟩
            rwa [FileSystem.move, holds] at moved

theorem Unwritten.of_grown
    (grown : system.Grown after (Path.Passes
      (system.start (Path.parent output)) (Path.steps (Path.parent output)))) :
    Unwritten system after output := by
  refine ⟨grown, fun path content => grown.contentAt?_of_some, ?_⟩
  obtain same | ⟨missing, names, content, stored, leads, present⟩ :=
    grown.contentAt?_cases output
  · exact .inl same
  · obtain ⟨-, -, -, named⟩ := contentAt?_eq_some_iff.mp present
    have around := hasDirectory_iff.mpr (resolve_parent leads named)
    exact .inr ⟨missing, around, names, content, leads, stored, present⟩

theorem Written.of_store
    (grown : system.Grown ready (Path.Passes
      (system.start (Path.parent output)) (Path.steps (Path.parent output))))
    (stored : ready.store output text.toUTF8 = .ok after) :
    Written system after output text := by
  obtain ⟨names, leads, named, plain, rfl⟩ := store_eq_ok_iff.mp stored
  obtain ⟨place, last, rfl, directory⟩ := resolve_concat leads named
  have around : ready.isDirectory (place ++ [last]).dropLast := by
    rwa [List.dropLast_concat]
  have more : place ++ [last] ≠ [] := by simp
  have beside := @beside_put ready _ text.toUTF8 more around plain
  have holds := @file?_put_self ready _ text.toUTF8 more around
  generalize ready.put (place ++ [last]) (.file text.toUTF8) = after
    at beside holds
  have kept : ∀ names, ready.isDirectory names → after.isDirectory names :=
    fun names old => (beside.directories names).trans old
  have leads' := resolve_mono beside.home kept leads
  refine ⟨textAt_of_contentAt? (contentAt?_eq_some_iff.mpr
      ⟨_, leads', holds, named⟩), beside.home.trans grown.home,
    ⟨_, leads', holds, fun other different => ?_, ?_⟩, ?_, ?_⟩
  · exact (beside.files other different).trans (grown.files other)
  · intro path content present elsewhere
    obtain ⟨other, follows, found, ends⟩ := contentAt?_eq_some_iff.mp present
    have different : other ≠ place ++ [last] := by
      rintro rfl
      exact elsewhere follows
    refine contentAt?_eq_some_iff.mpr ⟨other, ?_, ?_, ends⟩
    · exact resolve_mono (beside.home.trans grown.home)
        (fun names old => kept names (grown.kept names old)) follows
    · rw [beside.files other different, grown.files other, found]
  · exact fun names old => kept names (grown.kept names old)
  · intro names present
    rw [beside.directories] at present
    exact grown.new names present

theorem publish_atomic (lawful : disk.Lawful) (system : FileSystem)
    (output text : String) :
    (∃ failure after,
      system.perform (publish disk output text).run = (.error failure, after) ∧
      Unwritten system after output) ∨
    ∃ after, system.perform (publish disk output text).run = (.ok (), after) ∧
      Written system after output text := by
  have grown := lawful.createDirectories (Path.parent output) system
  cases created : system.perform
      (disk.createDirectories (Path.parent output)) with
  | mk result ready =>
      rw [created] at grown
      cases result with
      | error fault =>
          refine .inl ⟨.file .createDirectory (Path.parent output) fault,
            ready, ?_, .of_grown grown⟩
          exact perform_bind_error
            (perform_ask_error .createDirectory _ created)
      | ok =>
          obtain ⟨failure, after, failed, same⟩ |
              ⟨cleared, after, done, same, stored⟩ :=
            perform_publish lawful text created
          · exact .inl ⟨failure, after, failed,
              .of_grown (grown.trans (same _))⟩
          · exact .inr ⟨after, done,
              .of_store (grown.trans (same _)) stored⟩

end Build

theorem Command.perform_run_build {Handle : Type}
    {disk : Disk Handle (StateM FileSystem)} {system after : FileSystem}
    {config : Build.Config} {result : Except Build.Failure Build.Report}
    (verbose : Bool)
    (ended : system.perform (checkedBuild disk config).run = (result, after)) :
    system.perform (run disk (.build config verbose false)) =
      (Outcome.ofBuild verbose result, after) := by
  unfold FileSystem.perform at ended ⊢
  rw [run, StateT.run_map, ended]
  rfl

/-- A build that is refused, or fails before its text is there, changes nothing.
One that fails to write the text leaves every file as it was, and one that
succeeds leaves the text at its output and every other file as it was. -/
theorem Command.run_build_atomic {Handle : Type}
    {disk : Disk Handle (StateM FileSystem)} (lawful : disk.Lawful)
    (system : FileSystem) (config : Build.Config) (verbose : Bool) :
    (∃ failure : Build.Failure,
      (system.perform (Build.check disk config).run =
          (.error failure, system) ∨
        system.perform (Build.check disk config).run = (.ok (), system) ∧
        system.perform (Build.render disk config).run =
          (.error failure, system)) ∧
      system.perform (Command.run disk (.build config verbose false)) =
        (⟨1, ["Error: " ++ failure.report]⟩, system)) ∨
    ∃ text report,
      system.perform (Build.check disk config).run = (.ok (), system) ∧
      system.perform (Build.render disk config).run =
        (.ok (text, report), system) ∧
      ((∃ failure after,
        system.perform (Build.publish disk config.output text).run =
          (.error failure, after) ∧
        system.perform (Command.run disk (.build config verbose false)) =
          (⟨1, ["Error: " ++ failure.report]⟩, after) ∧
        Build.Unwritten system after config.output) ∨
      ∃ after,
        system.perform (Command.run disk (.build config verbose false)) =
          (⟨0, (logged verbose report.entries).map Log.Entry.text ++
            [report.message]⟩, after) ∧
        Build.Written system after config.output text) := by
  have checked := Build.quiet_check lawful config system
  have rendered := Build.quiet_render lawful config system
  cases check : system.perform (Build.check disk config).run with
  | mk result same =>
      rw [check] at checked
      obtain rfl : same = system := checked
      cases result with
      | error failure =>
          exact .inl ⟨failure, .inl rfl, perform_run_build verbose
            (FileSystem.perform_bind_error check)⟩
      | ok =>
          have onward : same.perform (checkedBuild disk config).run =
              same.perform (Build.run disk config).run :=
            FileSystem.perform_bind_ok check
          cases render : same.perform (Build.render disk config).run with
          | mk result again =>
              rw [render] at rendered
              obtain rfl : again = same := rendered
              cases result with
              | error failure =>
                  have ended := onward.trans
                    (FileSystem.perform_bind_error render)
                  exact .inl ⟨failure, .inr ⟨rfl, rfl⟩,
                    perform_run_build verbose ended⟩
              | ok made =>
                  obtain ⟨text, report⟩ := made
                  refine .inr ⟨text, report, rfl, rfl, ?_⟩
                  have written := onward.trans
                    (FileSystem.perform_bind_ok render)
                  obtain ⟨failure, after, failed, unwritten⟩ |
                      ⟨after, done, complete⟩ :=
                    Build.publish_atomic lawful again config.output text
                  · have ended := written.trans
                      (FileSystem.perform_bind_error failed)
                    exact .inl ⟨failure, after, failed,
                      perform_run_build verbose ended, unwritten⟩
                  · have ended := written.trans
                      (FileSystem.perform_bind_ok done)
                    exact .inr ⟨after, perform_run_build verbose ended,
                      complete⟩

namespace Build

def stocked : FileSystem :=
  ⟨["home"], .directory [("home",
    .directory [("o.go", .file "old".toUTF8), ("in", .empty)])]⟩

theorem exit_stocked :
    (stocked.perform (Command.run FileSystem.disk
      (.build ⟨"in", "a/o.go", "views"⟩ false false))).1.exit = 0 := by
  decide +kernel

end Build

/-- With nothing refused, a build writes its output into a new directory. -/
theorem Command.run_build_atomic_stocked :
    FileSystem.disk.Lawful ∧ ∃ text report after,
      Build.stocked.perform
        (Build.render FileSystem.disk ⟨"in", "a/o.go", "views"⟩).run =
          (.ok (text, report), Build.stocked) ∧
      (Build.stocked.perform (Command.run FileSystem.disk
        (.build ⟨"in", "a/o.go", "views"⟩ false false))).2 = after ∧
      Build.Written Build.stocked after "a/o.go" text := by
  refine ⟨FileSystem.disk_lawful, ?_⟩
  have succeeds := Build.exit_stocked
  obtain ⟨failure, -, ended⟩ | ⟨text, report, -, rendered, ⟨failure, after, -,
      ended, -⟩ | ⟨after, ended, written⟩⟩ :=
    Command.run_build_atomic FileSystem.disk_lawful Build.stocked
      ⟨"in", "a/o.go", "views"⟩ false
  · rw [ended] at succeeds
    cases succeeds
  · rw [ended] at succeeds
    cases succeeds
  · exact ⟨text, report, after, rendered, by rw [ended], written⟩

/-! Directories that a failed build leaves can open a way to a file that its
output did not lead to before. The output has to go through a directory that is
missing and out of it again. Here it is so long that a temporary file beside it
would have too long a path. -/

namespace Path

def idling : Nat → String
  | 0 => "a"
  | count + 1 => idling count ++ "/" ++ "."

def detour (count : Nat) : String := idling count ++ "/" ++ ".."

theorem steps_append (path name : String) :
    steps (path ++ "/" ++ name) = steps path ++ steps name := by
  rw [steps, segments_append, List.filterMap_append]
  rfl

theorem steps_idling (count : Nat) : steps (idling count) = [.down "a"] := by
  induction count with
  | zero => rfl
  | succ count induction =>
      rw [idling, steps_append, induction]
      rfl

theorem utf8ByteSize_idling (count : Nat) :
    (idling count).utf8ByteSize = 2 * count + 1 := by
  induction count with
  | zero => rfl
  | succ count induction =>
      rw [idling, String.utf8ByteSize_append, String.utf8ByteSize_append,
        induction, show "/".utf8ByteSize = 1 from rfl,
        show ".".utf8ByteSize = 1 from rfl]
      omega

theorem not_mem_idling (count : Nat) : '\x00' ∉ (idling count).toList := by
  induction count with
  | zero => decide
  | succ count induction =>
      rw [idling, String.toList_append, String.toList_append, List.mem_append,
        List.mem_append]
      simp [induction]

theorem head?_idling (count : Nat) :
    (idling count).toList.head? = some 'a' := by
  induction count with
  | zero => rfl
  | succ count induction =>
      rw [idling, String.toList_append, String.toList_append,
        List.append_assoc, List.head?_append, induction]
      rfl

theorem isAbsolute_idling_append (count : Nat) (rest : String) :
    isAbsolute (idling count ++ rest) = false := by
  rw [isAbsolute, String.toList_append, List.head?_append, head?_idling]
  rfl

theorem fault?_idling_append {count : Nat} {rest : String}
    (clean : '\x00' ∉ rest.toList)
    (short : 2 * count + 1 + rest.utf8ByteSize ≤ limit) :
    fault? (idling count ++ rest) = none := by
  have size : (idling count ++ rest).utf8ByteSize =
      2 * count + 1 + rest.utf8ByteSize := by
    rw [String.utf8ByteSize_append, utf8ByteSize_idling]
  have some : idling count ++ rest ≠ "" := by
    intro none
    rw [none, show "".utf8ByteSize = 0 from rfl] at size
    omega
  unfold fault?
  rw [if_neg (by simp [not_mem_idling, clean]), if_neg (by simpa using some),
    size, if_neg (Nat.not_lt.mpr short)]

theorem steps_detour (count : Nat) :
    steps (detour count) = [.down "a", .up] := by
  rw [detour, steps_append, steps_idling]
  rfl

theorem segments_detour_append (count : Nat) :
    segments (detour count ++ "/" ++ "o.go") =
      segments (idling count) ++ ["..", "o.go"] := by
  rw [segments_append, detour, segments_append, List.append_assoc]
  rfl

theorem parent_detour_append (count : Nat) :
    parent (detour count ++ "/" ++ "o.go") = detour count := by
  have around : segments (detour count) =
      segments (idling count) ++ [".."] := by
    rw [detour, segments_append]
    rfl
  unfold parent
  rw [segments_detour_append, List.reverse_append]
  simp only [List.reverse_cons, List.reverse_nil, List.nil_append,
    List.cons_append, dropIdle]
  simp [dropIdle, ← around, intercalate_segments]

theorem fault?_join_of_long {directory name : String}
    (accepted : fault? directory = none) (clean : '\x00' ∉ name.toList)
    (long : limit < directory.utf8ByteSize + name.utf8ByteSize) :
    fault? (join directory name) = some .nameTooLong := by
  have size : directory.utf8ByteSize + name.utf8ByteSize ≤
      (join directory name).utf8ByteSize := by
    unfold join
    split <;> simp only [String.utf8ByteSize_append] <;> omega
  have before : '\x00' ∉ directory.toList := by
    intro member
    simp [fault?, member] at accepted
  have without : '\x00' ∉ (join directory name).toList := by
    unfold join
    split <;> simp [before, clean]
  have filled : join directory name ≠ "" := by
    intro none
    rw [none, show "".utf8ByteSize = 0 from rfl] at size
    omega
  unfold fault?
  rw [if_neg (by simpa using without), if_neg (by simpa using filled),
    if_pos (Nat.lt_of_lt_of_le long size)]

end Path

namespace Build

def opened : FileSystem :=
  ⟨["home"], .directory [("home",
    .directory [("o.go", .file "old".toUTF8), ("in", .empty),
      ("a", .empty)])]⟩

/-- A build that is to write the file, over a path that goes through the
directory. -/
def roundabout (count : Nat) : Config :=
  ⟨"in", Path.detour count ++ "/" ++ "o.go", "views"⟩

theorem check_roundabout (count : Nat) :
    stocked.perform (check FileSystem.disk (roundabout count)).run =
      (.ok (), stocked) := by
  have package : Emit.isPackageName "views" = true := by decide +kernel
  have input : stocked.hasDirectory "in" = true := by decide +kernel
  have answered : stocked.perform (liftM (FileSystem.disk.isDirectory "in") :
      ExceptT Failure (StateM FileSystem) Bool).run = (.ok true, stocked) :=
    congrArg (fun present => (Except.ok present, stocked)) input
  unfold check
  rw [if_neg (by simp [roundabout, package])]
  exact FileSystem.perform_bind_ok answered

theorem render_roundabout (count : Nat) :
    ∃ text report,
      stocked.perform (render FileSystem.disk (roundabout count)).run =
        (.ok (text, report), stocked) := by
  have walked : stocked.walk "in" = [.ok ⟨"in", false⟩] := by decide +kernel
  have found : stocked.perform (collect FileSystem.disk "in").run =
      (.ok [], stocked) := by
    rw [perform_collect (show stocked.perform (FileSystem.disk.walk "in") =
      (stocked.walk "in", stocked) from rfl), walked]
    simp [gather, Except.map, pure, Except.pure, bind, Except.bind]
  exact ⟨_, _, FileSystem.perform_bind_ok found⟩

theorem createTemporary_of_long {system : FileSystem} {directory : String}
    (accepted : Path.fault? directory = none)
    (long : Path.limit < directory.utf8ByteSize +
      (FileSystem.temporaryName 0).utf8ByteSize) :
    system.createTemporary directory = (.error .nameTooLong, system) := by
  have clean : '\x00' ∉ (FileSystem.temporaryName 0).toList := by
    decide +kernel
  have unresolved : system.resolve (Path.join directory
      (FileSystem.temporaryName 0)) = .error .nameTooLong := by
    unfold FileSystem.resolve
    rw [Path.fault?_join_of_long accepted clean long]
  have names : FileSystem.temporaryNames = FileSystem.temporaryName 0 ::
      ((List.range 999).map Nat.succ).map FileSystem.temporaryName := by
    rw [FileSystem.temporaryNames, List.range_succ_eq_map, List.map_cons]
  have taken : system.freeIn directory FileSystem.temporaryNames =
      .error .nameTooLong := by
    rw [names, FileSystem.freeIn, unresolved]
    rfl
  unfold FileSystem.createTemporary
  rw [taken]

theorem publish_roundabout {count : Nat} (text : String)
    (short : 2 * count + 4 ≤ Path.limit)
    (long : Path.limit < 2 * count + 14) :
    stocked.perform
      (publish FileSystem.disk (roundabout count).output text).run =
        (.error (.file .createTemporary (Path.detour count) .nameTooLong),
          opened) := by
  have accepted : Path.fault? (Path.detour count) = none := by
    rw [Path.detour, String.append_assoc]
    exact Path.fault?_idling_append (by decide) short
  have relative : Path.isAbsolute (Path.detour count) = false := by
    rw [Path.detour, String.append_assoc]
    exact Path.isAbsolute_idling_append count _
  have created : stocked.perform
      (FileSystem.disk.createDirectories (Path.detour count)) =
        (.ok (), opened) := by
    rw [show FileSystem.disk.createDirectories (Path.detour count) =
      modifyGet (FileSystem.createDirectories · (Path.detour count)) from rfl,
      FileSystem.perform_modifyGet]
    unfold FileSystem.createDirectories FileSystem.start
    rw [accepted, relative, Path.steps_detour]
    rfl
  have size : (Path.detour count).utf8ByteSize = 2 * count + 4 := by
    rw [Path.detour, String.utf8ByteSize_append, String.utf8ByteSize_append,
      Path.utf8ByteSize_idling]
    rfl
  have refused : opened.perform
      (FileSystem.disk.temporary.create (Path.detour count)) =
        (.error .nameTooLong, opened) := by
    rw [show FileSystem.disk.temporary = FileSystem.temporaryFiles from rfl,
      FileSystem.create_temporaryFiles, FileSystem.perform_modifyGet]
    exact createTemporary_of_long accepted (by rw [size]; exact long)
  unfold publish
  rw [roundabout, Path.parent_detour_append,
    FileSystem.perform_bind_ok (perform_ask_ok .createDirectory _ created),
    FileSystem.perform_bind_error
      (perform_ask_error .createTemporary _ refused)]

theorem contentAt?_roundabout {count : Nat}
    (short : 2 * count + 9 ≤ Path.limit) :
    stocked.contentAt? (roundabout count).output = none ∧
      opened.contentAt? (roundabout count).output = some "old".toUTF8 := by
  have shape : (roundabout count).output =
      Path.idling count ++ ("/" ++ ".." ++ "/" ++ "o.go") := by
    rw [roundabout, Path.detour]
    simp only [String.append_assoc]
  have accepted : Path.fault? (roundabout count).output = none := by
    rw [shape]
    exact Path.fault?_idling_append (by decide) short
  have relative : Path.isAbsolute (roundabout count).output = false := by
    rw [shape]
    exact Path.isAbsolute_idling_append count _
  have steps : Path.steps (roundabout count).output =
      [.down "a", .up, .down "o.go"] := by
    rw [roundabout, Path.steps_append, Path.steps_detour]
    rfl
  have ending : Path.ending (roundabout count).output = .name := by
    unfold Path.ending
    rw [roundabout, Path.segments_detour_append, List.reverse_append]
    rfl
  constructor
  · have missing : stocked.resolve (roundabout count).output =
        .error .missing := by
      unfold FileSystem.resolve FileSystem.start
      rw [accepted, relative, steps]
      rfl
    unfold FileSystem.contentAt? FileSystem.entryAt
    rw [missing]
    rfl
  · have leads : opened.resolve (roundabout count).output =
        .ok ["home", "o.go"] := by
      unfold FileSystem.resolve FileSystem.start
      rw [accepted, relative, steps]
      rfl
    exact FileSystem.contentAt?_eq_some_iff.mpr
      ⟨["home", "o.go"], leads, rfl, ending⟩

theorem run_roundabout {count : Nat} (short : 2 * count + 9 ≤ Path.limit)
    (long : Path.limit < 2 * count + 14) :
    ∃ messages, stocked.perform (Command.run FileSystem.disk
      (.build (roundabout count) false false)) = (⟨1, messages⟩, opened) := by
  obtain ⟨text, report, rendered⟩ := render_roundabout count
  have published := publish_roundabout text (by omega) long
  have ended : stocked.perform
      (Command.checkedBuild FileSystem.disk (roundabout count)).run =
        (.error (.file .createTemporary (Path.detour count) .nameTooLong),
          opened) := by
    unfold Command.checkedBuild Build.run
    rw [FileSystem.perform_bind_ok (check_roundabout count),
      FileSystem.perform_bind_ok rendered]
    exact FileSystem.perform_bind_error published
  exact ⟨_, Command.perform_run_build false ended⟩

end Build

/-- Over a path of 4091 bytes, a build fails to write `o.go`. The path leads
there afterwards, and did not before. -/
theorem Command.run_build_opens_way :
    Build.stocked.perform
        (Build.check FileSystem.disk (Build.roundabout 2041)).run =
      (.ok (), Build.stocked) ∧
    (∃ text report, Build.stocked.perform
        (Build.render FileSystem.disk (Build.roundabout 2041)).run =
      (.ok (text, report), Build.stocked)) ∧
    (∃ messages, Build.stocked.perform (Command.run FileSystem.disk
        (.build (Build.roundabout 2041) false false)) =
      (⟨1, messages⟩, Build.opened)) ∧
    Build.stocked.contentAt? (Build.roundabout 2041).output = none ∧
    Build.opened.contentAt? (Build.roundabout 2041).output =
      some "old".toUTF8 := by
  have short : 2 * 2041 + 9 ≤ Path.limit := by decide
  have long : Path.limit < 2 * 2041 + 14 := by decide
  exact ⟨Build.check_roundabout 2041, Build.render_roundabout 2041,
    Build.run_roundabout short long, Build.contentAt?_roundabout short⟩

end Stencil
