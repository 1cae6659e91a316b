import Stencil.Text.Search

namespace Stencil

structure Parameter where
  name : String
  type : String
  deriving DecidableEq, Repr

namespace Parameter

def text (parameter : Parameter) : String :=
  parameter.name ++ " " ++ parameter.type

/-- The parameter that an attribute or a slot of the given name goes to. HTML
does not keep case, so a name that is not met exactly is compared without it. -/
def find? (parameters : List Parameter) (key : String) : Option Parameter :=
  match parameters.find? fun parameter => parameter.name == key with
  | some parameter => some parameter
  | none =>
      parameters.find? fun parameter => Text.sameIgnoringCase parameter.name key

end Parameter

structure Signature where
  component : String
  parameters : List Parameter
  deriving DecidableEq, Repr

structure Signatures where
  entries : List Signature
  deriving DecidableEq, Repr

namespace Signatures

def empty : Signatures := ⟨[]⟩

def get? (signatures : Signatures) (component : String) :
    Option (List Parameter) :=
  (signatures.entries.find? fun entry => entry.component == component).map
    Signature.parameters

def insert (signatures : Signatures) (signature : Signature) : Signatures :=
  ⟨signatures.entries ++ [signature]⟩

end Signatures

end Stencil
