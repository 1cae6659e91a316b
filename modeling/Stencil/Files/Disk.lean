import Stencil.Files.Path

namespace Stencil

/-! What a program asks of a disk. The program runs in any monad that
answers. -/

@[ext] structure Visit where
  path : String
  isFile : Bool
  deriving DecidableEq, Repr

structure Obstacle where
  path : String
  fault : Fault
  deriving DecidableEq, Repr

/-- Files that are filled in the directory of another one and then moved to its
place. A file that is not moved is dropped. -/
structure TemporaryFiles (Handle : Type) (m : Type → Type) where
  create : (directory : String) → m (Except Fault Handle)
  fill : Handle → ByteArray → m (Except Fault Unit)
  persist : Handle → (path : String) → m (Except Fault Unit)
  drop : Handle → m Unit

structure Disk (Handle : Type) (m : Type → Type) where
  isDirectory : (path : String) → m Bool
  walk : (path : String) → m (List (Except Obstacle Visit))
  read : (path : String) → m (Except Fault String)
  createDirectories : (path : String) → m (Except Fault Unit)
  temporary : TemporaryFiles Handle m

end Stencil
