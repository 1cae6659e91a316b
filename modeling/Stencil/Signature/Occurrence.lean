import Stencil.Construct.Basic
import Stencil.GenerationError

namespace Stencil

/-! The parameters of a component, read off the names that its constructs
use. -/

structure Occurrence where
  name : String
  type : Option String
  html : String
  deriving DecidableEq, Repr

namespace Construct

mutual
/-- A construct and all below it, each before what is inside it, with the loop
items bound around it. -/
def inScope (bound : List String) : Construct → List (List String × Construct)
  | ⟨kind, id, span, html, runs, children⟩ =>
      (bound, ⟨kind, id, span, html, runs, children⟩) ::
        forestInScope (kind.item?.toList ++ bound) children

def forestInScope (bound : List String) :
    List Construct → List (List String × Construct)
  | [] => []
  | construct :: rest => construct.inScope bound ++ forestInScope bound rest
end

def declaredStrings (markers : List Marker) : List (String × Option String) :=
  (markers.filterMap Marker.declared?).map fun name => (name, some "string")

/-- The type of a name that is passed on whole: that of the parameter it goes
to, and unknown while the called component has no signature. -/
def forwardedType (callees : Signatures) (target argument : String) :
    Option String :=
  (callees.get? target).map fun parameters =>
    match Parameter.find? parameters argument with
    | some parameter => parameter.type
    | none => "string"

def argumentNames (callees : Signatures) (target : String)
    (argument : Argument) :
    List (String × Option String) :=
  match argument.value with
  | .expression marker =>
      match marker.declared? with
      | some name => [(name, forwardedType callees target argument.name)]
      | none => []
  | value => declaredStrings value.markers

def declaredNames (callees : Signatures) (construct : Construct) :
    List (String × Option String) :=
  declaredStrings construct.markers ++
    match construct.kind with
    | .placeholder target arguments =>
        arguments.flatMap (argumentNames callees target)
    | _ => []

/-- What the markers of a construct use. The item of a loop is bound in its own
markup. -/
def markerOccurrences (callees : Signatures) (bound : List String)
    (construct : Construct) :
    List Occurrence :=
  ((construct.declaredNames callees).filter fun (name, _) =>
    !bound.contains name &&
        construct.kind.item? != some name).map fun (name, type) =>
          ⟨name, type, construct.html⟩

/-- What the directive of a construct uses. The item of a loop is not bound in
its own collection. -/
def directiveOccurrences (bound : List String) (construct : Construct) :
    List Occurrence :=
  let used := match construct.kind with
    | .conditional condition | .alternative condition => [(condition, "bool")]
    | .loop _ collection type => [(collection, type)]
    | _ => []
  (used.filter fun (name, _) => !name.toList.contains '.' &&
    !bound.contains name).map
    fun (name, type) => ⟨name, some type, construct.html⟩

def occurrences (callees : Signatures) (root : Construct) : List Occurrence :=
  let all := root.inScope []
  (all.flatMap fun (bound, construct) => construct.markerOccurrences callees
    bound) ++
    all.flatMap fun (bound, construct) => construct.directiveOccurrences bound

end Construct

namespace Parameter

/-- Adds a parameter for a use that tells its type. A name has one type. -/
def addTyped (parameters : List Parameter) (occurrence : Occurrence) :
    Except GenerationError (List Parameter) :=
  match occurrence.type with
  | none => .ok parameters
  | some type =>
      match parameters.find? fun parameter =>
          parameter.name == occurrence.name with
      | none => .ok (parameters ++ [⟨occurrence.name, type⟩])
      | some first =>
          if first.type = type then .ok parameters
          else .error (.ofHtml occurrence.html
            (.conflictingTypes occurrence.name first.type type))

def addUntyped (parameters : List Parameter) (occurrence : Occurrence) :
    List Parameter :=
  if parameters.any fun parameter => parameter.name == occurrence.name then
    parameters
  else parameters ++ [⟨occurrence.name, "string"⟩]

def ofConstruct (callees : Signatures) (root : Construct) :
    Except GenerationError (List Parameter) := do
  let occurrences := root.occurrences callees
  let typed ← occurrences.foldlM addTyped []
  return (occurrences.filter fun occurrence => occurrence.type.isNone).foldl
    addUntyped typed

end Parameter

end Stencil
