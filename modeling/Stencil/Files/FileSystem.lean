import Stencil.Files.Tree

namespace Stencil

/-! A file system with a working directory. -/

structure FileSystem where
  home : List String
  root : Tree

namespace FileSystem

def at? (system : FileSystem) (names : List String) : Option Tree :=
  system.root.at? names

def isDirectory (system : FileSystem) (names : List String) : Bool :=
  match system.at? names with
  | some (.directory _) => true
  | _ => false

def file? (system : FileSystem) (names : List String) : Option ByteArray :=
  match system.at? names with
  | some (.file content) => some content
  | _ => none

def absence (system : FileSystem) (names : List String) : Fault :=
  if (system.file? names).isSome then .notDirectory else .missing

/-- Where some steps lead from a directory. Only a directory can be left, there
is nothing around the root, and there need not be anything at the end. -/
def follow (system : FileSystem) (names : List String) :
    List Path.Step → Except Fault (List String)
  | [] => .ok names
  | step :: rest =>
      if system.isDirectory names then
        match step with
        | .up => system.follow names.dropLast rest
        | .down name =>
            if Path.nameLimit < name.utf8ByteSize then .error .nameTooLong
            else system.follow (names ++ [name]) rest
      else .error (system.absence names)

def start (system : FileSystem) (path : String) : List String :=
  if Path.isAbsolute path then [] else system.home

def resolve (system : FileSystem) (path : String) :
    Except Fault (List String) :=
  match Path.fault? path with
  | some fault => .error fault
  | none => system.follow (system.start path) (Path.steps path)

/-- What is at a path. Only a directory can have slashes or dots behind its
name. -/
def entryAt (system : FileSystem) (path : String) : Except Fault Tree := do
  let names ← system.resolve path
  match system.at? names with
  | none => throw .missing
  | some (.directory entries) => return .directory entries
  | some (.file content) =>
      if Path.ending path = .name then return .file content
      else throw .notDirectory

def hasDirectory (system : FileSystem) (path : String) : Bool :=
  match system.entryAt path with
  | .ok (.directory _) => true
  | _ => false

def textAt (system : FileSystem) (path : String) : Except Fault String :=
  match system.entryAt path with
  | .error fault => .error fault
  | .ok (.directory _) => .error .directory
  | .ok (.file content) =>
      match String.fromUTF8? content with
      | some text => .ok text
      | none => .error .notText

def put (system : FileSystem) (names : List String) (added : Tree) :
    FileSystem :=
  { system with root := Tree.put added names system.root }

def discard (system : FileSystem) (names : List String) : FileSystem :=
  { system with root := system.root.discard names }

/-- Creates the directories that some steps from a directory lead through;
`begun` tells whether one of the path has been created already. What was
created stays when a later step fails. A file that is in the way is met by its
name as soon as anything before it had to be created, and otherwise only if it
comes last. -/
def createAlong (system : FileSystem) (names : List String) (begun : Bool) :
    List Path.Step → Except Fault Unit × FileSystem
  | [] => (.ok (), system)
  | .up :: rest => system.createAlong names.dropLast begun rest
  | .down name :: rest =>
      let next := names ++ [name]
      if Path.nameLimit < name.utf8ByteSize then (.error .nameTooLong, system)
      else if system.isDirectory next then system.createAlong next begun rest
      else if (system.file? next).isSome then
        (.error (if begun || rest.isEmpty then .occupied else .notDirectory),
          system)
      else (system.put next .empty).createAlong next true rest

def createDirectories (system : FileSystem) (path : String) :
    Except Fault Unit × FileSystem :=
  match Path.fault? path with
  | some fault => (.error fault, system)
  | none =>
      if system.isDirectory (system.start path) then
        system.createAlong (system.start path) false (Path.steps path)
      else (.error .missing, system)

def store (system : FileSystem) (path : String) (content : ByteArray) :
    Except Fault FileSystem := do
  let names ← system.resolve path
  match Path.ending path with
  | .dots =>
      throw (if system.isDirectory names then .busy else system.absence names)
  | .slash => throw .notDirectory
  | .name =>
      if system.isDirectory names then throw .directory
      return system.put names (.file content)

def move (system : FileSystem) (names : List String) (path : String) :
    Except Fault FileSystem :=
  match system.file? names with
  | none => .error .missing
  | some content => (system.discard names).store path content

def remove (system : FileSystem) (path : String) :
    Except Fault FileSystem := do
  match ← system.entryAt path with
  | .directory _ => throw .directory
  | .file _ => return system.discard (← system.resolve path)

/-- A walk from a path. It does not get into a directory whose path is too
long. -/
def walk (system : FileSystem) (path : String) :
    List (Except Obstacle Visit) :=
  match system.entryAt path with
  | .error fault => [.error ⟨path, fault⟩]
  | .ok tree =>
      let found := tree.visits path
      let barrier? := found.find? fun visit =>
        !visit.isFile && Path.limit < visit.path.utf8ByteSize
      match barrier? with
      | some visit => [.error ⟨visit.path, .nameTooLong⟩]
      | none => found.map .ok

def listing (system : FileSystem) : List String :=
  match system.at? system.home with
  | none => []
  | some tree =>
      (tree.fileNames.map "/".intercalate).mergeSort fun left right =>
        decide (left ≤ right)

def perform {α : Type} (system : FileSystem) (work : StateM FileSystem α) :
    α × FileSystem :=
  work.run system

def freeIn (system : FileSystem) (directory : String) :
    List String → Except Fault (List String)
  | [] => .error .occupied
  | name :: others => do
      let names ← system.resolve (Path.join directory name)
      if (system.at? names).isSome then system.freeIn directory others
      else return names

def temporaryName (number : Nat) : String :=
  ".tmp" ++ toString (100000 + number)

def temporaryNames : List String :=
  (List.range 1000).map temporaryName

def createTemporary (system : FileSystem) (directory : String) :
    Except Fault (List String) × FileSystem :=
  match system.freeIn directory temporaryNames with
  | .error fault => (.error fault, system)
  | .ok names => (.ok names, system.put names (.file .empty))

def persistTemporary (system : FileSystem) (names : List String)
    (path : String) : Except Fault Unit × FileSystem :=
  match system.move names path with
  | .error fault => (.error fault, system)
  | .ok after => (.ok (), after)

def temporaryFiles :
    TemporaryFiles (List String) (StateM FileSystem) where
  create directory := modifyGet (createTemporary · directory)
  fill names content := modifyGet fun system =>
    (.ok (), system.put names (.file content))
  persist names path := modifyGet (persistTemporary · names path)
  drop names := modify (discard · names)

def atHome (home : List String) : FileSystem :=
  ⟨home, home.foldr (fun name inner => .directory [(name, inner)]) .empty⟩

/-- A disk that refuses nothing but what cannot be. -/
def disk : Disk (List String) (StateM FileSystem) where
  isDirectory path := (hasDirectory · path) <$> get
  walk path := (walk · path) <$> get
  read path := (textAt · path) <$> get
  createDirectories path := modifyGet (createDirectories · path)
  temporary := temporaryFiles

end FileSystem

end Stencil
