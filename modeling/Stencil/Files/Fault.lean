namespace Stencil

inductive Fault where
  | missing
  /-- The path leads to a place that is always taken, such as the working
  directory itself. -/
  | busy
  /-- Something is where a directory is to be made. -/
  | occupied
  | notDirectory
  /-- A directory is where a file is to be put or read. -/
  | directory
  | nameTooLong
  /-- No path holds a NUL. -/
  | nul
  /-- The file does not hold UTF-8. -/
  | notText
  /-- Anything else, such as a lack of rights or of space. -/
  | other (message : String)
  deriving DecidableEq, Repr

namespace Fault

def message : Fault → String
  | .missing => "No such file or directory (os error 2)"
  | .busy => "Device or resource busy (os error 16)"
  | .occupied => "File exists (os error 17)"
  | .notDirectory => "Not a directory (os error 20)"
  | .directory => "Is a directory (os error 21)"
  | .nameTooLong => "File name too long (os error 36)"
  | .nul => "file name contained an unexpected NUL byte"
  | .notText => "stream did not contain valid UTF-8"
  | .other message => message

end Fault

end Stencil
