import Stencil.Command

namespace Stencil.Main

/-! The command as a program, on the disk that it is run on. -/

def fault : IO.Error → Fault
  | .noFileOrDirectory _ _ _ => .missing
  | .alreadyExists _ _ _ => .occupied
  | .resourceBusy _ _ => .busy
  | .inappropriateType _ code _ =>
      if code = 21 then .directory else .notDirectory
  | .invalidArgument _ code message =>
      if code = 36 then .nameTooLong else .other message
  | error => .other (toString error)

def attempt {α : Type} (work : IO α) : IO (Except Fault α) := do
  match ← work.toBaseIO with
  | .ok value => return .ok value
  | .error error => return .error (fault error)

def kindAt (path : String) : IO IO.FS.FileType := do
  return (← (← IO.FS.realPath path).metadata).type

def isDirectory (path : String) : IO Bool := do
  match ← attempt (kindAt path) with
  | .ok .dir => return true
  | _ => return false

/-- What a walk comes upon below a directory. -/
partial def walkBelow (path : String) :
    IO (List (Except Obstacle Visit)) := do
  match ← attempt (do (← IO.FS.realPath path).readDir) with
  | .error fault => return [.error ⟨path, fault⟩]
  | .ok entries =>
      let inner ← entries.toList.mapM fun entry => do
        let place := Path.join path entry.fileName
        match (← entry.path.symlinkMetadata).type with
        | .dir => return .ok ⟨place, false⟩ :: (← walkBelow place)
        | .file => return [.ok ⟨place, true⟩]
        | _ => return [.ok ⟨place, false⟩]
      return inner.flatten

def walk (path : String) : IO (List (Except Obstacle Visit)) := do
  match ← attempt (kindAt path) with
  | .error fault => return [.error ⟨path, fault⟩]
  | .ok .dir => return .ok ⟨path, false⟩ :: (← walkBelow path)
  | .ok kind => return [.ok ⟨path, kind == .file⟩]

def read (path : String) : IO (Except Fault String) := do
  match ← attempt (IO.FS.readBinFile path) with
  | .error fault => return .error fault
  | .ok content =>
      match String.fromUTF8? content with
      | some text => return .ok text
      | none => return .error .notText

def createTemporary (directory : String) : Nat → IO (Except Fault String)
  | 0 => return .error .occupied
  | tries + 1 => do
      let number ← IO.rand 100000 999999
      let path := Path.join directory (".tmp" ++ toString number)
      match ← attempt (IO.FS.Handle.mk path .writeNew) with
      | .ok _ => return .ok path
      | .error .occupied => createTemporary directory tries
      | .error fault => return .error fault

def temporaryFiles : TemporaryFiles String IO where
  create directory := createTemporary directory 1000
  fill handle content := attempt (IO.FS.writeBinFile handle content)
  persist handle path := attempt (IO.FS.rename handle path)
  drop handle := do
    let _ ← attempt (IO.FS.removeFile handle)

def disk : Disk String IO where
  isDirectory := isDirectory
  walk := walk
  read := read
  createDirectories path := attempt (IO.FS.createDirAll path)
  temporary := temporaryFiles

def finish (outcome : Command.Outcome) : IO UInt32 := do
  for message in outcome.messages do
    IO.eprintln message
  return outcome.exit.toUInt32

def rebuild (config : Build.Config) (verbose : Bool) : IO Unit := do
  match ← (Build.run disk config).run with
  | .error failure => IO.eprintln failure.report
  | .ok report =>
      for entry in Command.logged verbose report.entries do
        IO.eprintln entry.text

def templates (input : String) : IO (List (String × Option String)) := do
  match ← (Build.collect disk input).run with
  | .error _ => return []
  | .ok paths =>
      paths.mapM fun path => return (path, (← read path).toOption)

/-- Builds again whenever a template has changed. -/
partial def watch (config : Build.Config) (verbose : Bool)
    (last : List (String × Option String)) : IO UInt32 := do
  IO.sleep 300
  let current ← templates config.input
  unless current = last do
    rebuild config verbose
  watch config verbose current

def usage : String :=
  "Usage: gtml [--verbose] build <INPUT_DIR> <OUTPUT_FILE> " ++
    "<PACKAGE_NAME> [--watch]"

/-- Runs a command. One that is to watch its input checks its settings, builds
once and then goes on. -/
def run : Command → IO UInt32
  | .build config verbose true => do
      match ← (Build.check disk config).run with
      | .error failure => finish (.ofBuild verbose (.error failure))
      | .ok () =>
          let current ← templates config.input
          rebuild config verbose
          watch config verbose current
  | command => do
      let outcome ← Command.run disk command
      if command = .inform then IO.println usage
      if command = .refuse then IO.eprintln usage
      finish outcome

end Stencil.Main

def main (arguments : List String) : IO UInt32 :=
  Stencil.Main.run (.ofArguments arguments)
