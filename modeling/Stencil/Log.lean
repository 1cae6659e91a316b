namespace Stencil.Log

inductive Level where
  | debug
  | info
  deriving DecidableEq, Repr

def Level.label : Level → String
  | .debug => "\x1b[34mDEBUG\x1b[0m"
  | .info => "\x1b[32m INFO\x1b[0m"

structure Entry where
  level : Level
  message : String
  fields : List (String × String)
  deriving DecidableEq, Repr

namespace Entry

/-- A field as it is shown: the name in italics and the sign behind it dimmed.
The value stands as it is, so it can run over several lines. -/
def fieldText (name value : String) : String :=
  "\x1b[3m" ++ name ++ "\x1b[0m\x1b[2m=\x1b[0m" ++ value

def text (entry : Entry) : String :=
  " ".intercalate (entry.level.label :: entry.message ::
    entry.fields.map fun (name, value) => fieldText name value)

end Entry

end Stencil.Log
