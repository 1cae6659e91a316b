import Stencil.Files.Disk
import Stencil.Log
import Stencil.Program

namespace Stencil.Build

/-! A build: the templates below a directory become one file. -/

structure Config where
  input : String
  output : String
  package : String
  deriving DecidableEq, Repr

inductive Action where
  /-- Looking for templates, at a place below the input. -/
  | walk (place : String)
  | read
  | createDirectory
  | createTemporary
  | fill
  | write
  deriving DecidableEq, Repr

def Action.message (action : Action) (path : String) : String :=
  match action with
  | .walk _ => "failed to walk " ++ path
  | .read => "failed to read " ++ path
  | .createDirectory => "failed to create " ++ path
  | .createTemporary => "failed to create a temporary file in " ++ path
  | .fill => "failed to write generated code"
  | .write => "failed to write " ++ path

inductive Failure where
  | invalidPackage (name : String)
  | missingInput (path : String)
  | file (action : Action) (path : String) (fault : Fault)
  | template (error : TemplateError)
  | generation (error : GenerationError)
  deriving DecidableEq, Repr

namespace Failure

def message : Failure → String
  | .invalidPackage name => "'" ++ name ++ "' is not a valid Go package name"
  | .missingInput path => "input directory " ++ path ++ " does not exist"
  | .file action path _ => action.message path
  | .template error => error.message
  | .generation error => error.message

def causes : Failure → List String
  | .file (.walk place) _ fault =>
      ["IO error for operation on " ++ place ++ ": " ++ fault.message,
        fault.message]
  | .file .write _ fault =>
      ["failed to persist temporary file: " ++ fault.message, fault.message]
  | .file _ _ fault => [fault.message]
  | _ => []

def report (failure : Failure) : String :=
  ": ".intercalate (failure.message :: failure.causes)

end Failure

structure Report where
  files : Nat
  components : Nat
  output : String
  /-- The number of bytes of the generated text. -/
  size : Nat
  deriving DecidableEq, Repr

def Report.entries (report : Report) : List Log.Entry :=
  [⟨.debug, "output written",
    [("path", report.output), ("bytes", toString report.size)]⟩,
    ⟨.info, "build finished",
      [("files", toString report.files),
        ("components", toString report.components), ("output", report.output)]⟩]

def Report.message (report : Report) : String :=
  "Built: " ++ report.output ++ " (" ++ toString report.components ++
    " components from " ++
    toString report.files ++ " files)"

section Steps

variable {Handle : Type} {m : Type → Type} [Monad m]

def ask {α : Type} (action : Action) (path : String)
    (answer : m (Except Fault α)) : ExceptT Failure m α :=
  ExceptT.mk ((fun result => result.mapError (.file action path)) <$> answer)

def check (disk : Disk Handle m) (config : Config) :
    ExceptT Failure m Unit := do
  if !Emit.isPackageName config.package then
    throw (.invalidPackage config.package)
  if !(← disk.isDirectory config.input) then
    throw (.missingInput config.input)

/-- Takes the next result of a walk, and keeps the path of a template file:
one with the extension `html`. -/
def gather (input : String) (paths : List String) :
    Except Obstacle Visit → Except Failure (List String)
  | .error obstacle =>
      .error (.file (.walk obstacle.path) input obstacle.fault)
  | .ok visit =>
      if visit.isFile && Path.extension? visit.path == some "html" then
        .ok (paths ++ [visit.path])
      else .ok paths

def collect (disk : Disk Handle m) (input : String) :
    ExceptT Failure m (List String) := do
  let walked ← disk.walk input
  let paths ← MonadExcept.ofExcept (walked.foldlM (gather input) [])
  return paths.mergeSort Path.precedes

def readTemplate (disk : Disk Handle m) (input path : String) :
    ExceptT Failure m TemplateFile := do
  let text ← ask .read path (disk.read path)
  return ⟨Path.relative input path, text⟩

/-- The text of the file that a build writes. All templates are read before any
is compiled. -/
def render (disk : Disk Handle m) (config : Config) :
    ExceptT Failure m (String × Report) := do
  let paths ← collect disk config.input
  let files ← paths.mapM (readTemplate disk config.input)
  let (catalog, _) ←
    MonadExcept.ofExcept ((Catalog.parse files).mapError .template)
  let (functions, _) ←
    MonadExcept.ofExcept (catalog.functions.mapError .generation)
  let text := Emit.file config.package (functions.map GeneratedFunction.code)
  return (text,
    ⟨paths.length, functions.length, config.output, text.utf8ByteSize⟩)

/-- Writes a file in one step: a temporary file in the same directory takes the
text, and is moved to the path or dropped. The directories that the file is in
are created before, and stay when a later step fails. -/
def publish (disk : Disk Handle m) (path text : String) :
    ExceptT Failure m Unit := do
  let directory := Path.parent path
  ask .createDirectory directory (disk.createDirectories directory)
  let handle ←
    ask .createTemporary directory (disk.temporary.create directory)
  tryCatch
    (do
      ask .fill path (disk.temporary.fill handle text.toUTF8)
      ask .write path (disk.temporary.persist handle path))
    fun failure => do
      disk.temporary.drop handle
      throw failure

def run (disk : Disk Handle m) (config : Config) :
    ExceptT Failure m Report := do
  let (text, report) ← render disk config
  publish disk config.output text
  return report

end Steps

end Stencil.Build
