import Stencil.Construct.Basic
import Stencil.Emit.Quote
import Stencil.Event
import Stencil.GenerationError

namespace Stencil

/-! Calls of components. Attributes and slots are named; the called component's
parameters decide their order. -/

structure SlotArgument where
  name : String
  expression : String
  deriving DecidableEq, Repr

namespace Parameter

def convert (parameter : Parameter) :
    AttributeValue → Except GenerationError.Misfit String
  | .empty =>
      if parameter.type = "bool" then .ok "true"
      else if parameter.type = "string" then .ok (Emit.quote "")
      else .error .emptyValue
  | .literal kind text =>
      if parameter.type = "string" then .ok (Emit.quote text)
      else if parameter.type = "bool" ∧ kind = .bool then .ok text
      else if parameter.type = "int" ∧ kind = .int then .ok text
      else .error (.literal text)
  | .expression marker => .ok marker.expression
  | .template parts =>
      if parameter.type = "string" then
        .ok (" + ".intercalate (parts.map fun part =>
          match part with
          | .plain text => Emit.quote text
          | .marker marker => marker.expression))
      else .error .mixedText

end Parameter

/-- A way to take the values of attributes for parameters. -/
abbrev Conversion :=
  Parameter → AttributeValue → Except GenerationError.Misfit String

structure Binding where
  parameter : String
  expression : String
  deriving DecidableEq, Repr

structure Call where
  target : String
  arguments : List String
  deriving DecidableEq, Repr

def Call.text (call : Call) : String :=
  call.target ++ "(" ++ ", ".intercalate call.arguments ++ ")"

namespace Call

structure Draft where
  bindings : List Binding
  usedSlots : List String
  events : List Event

namespace Draft

def empty : Draft := ⟨[], [], []⟩

def bind (target html : String) (draft : Draft)
    (parameter expression : String) :
    Except GenerationError Draft :=
  if draft.bindings.any fun binding => binding.parameter == parameter then
    .error (.ofHtml html (.repeatedArgument target parameter))
  else .ok { draft with bindings :=
    draft.bindings ++ [⟨parameter, expression⟩] }

def addArgument (target html : String) (parameters : List Parameter)
    (draft : Draft) (argument : Argument)
    (convert : Conversion := Parameter.convert) :
    Except GenerationError Draft :=
  match Parameter.find? parameters argument.name with
  | none =>
      .ok { draft with
        events := draft.events ++ [.ignoredArgument target argument.name] }
  | some parameter =>
      match convert parameter argument.value with
      | .error misfit => .error (.ofHtml html (.misfit target parameter misfit))
      | .ok expression => draft.bind target html parameter.name expression

def addSlot (target html : String) (parameters : List Parameter) (draft : Draft)
    (slot : SlotArgument) : Except GenerationError Draft :=
  match Parameter.find? parameters slot.name with
  | none =>
      .ok { draft with events :=
        draft.events ++ [.ignoredSlot target slot.name] }
  | some parameter =>
      (draft.bind target html parameter.name slot.expression).map fun bound =>
        { bound with usedSlots := bound.usedSlots ++ [slot.name] }

def argument (target html : String) (draft : Draft) (parameter : Parameter) :
    Except GenerationError String :=
  match draft.bindings.find? fun binding =>
      binding.parameter == parameter.name with
  | none => .error (.ofHtml html (.missingArgument target parameter))
  | some binding => .ok binding.expression

end Draft

end Call

structure LinkedCall where
  call : Call
  usedSlots : List String
  events : List Event

/-- The call that a placeholder makes. Its markup is quoted in errors. -/
def Call.link (signatures : Signatures) (target html : String)
    (arguments : List Argument) (slots : List SlotArgument)
    (convert : Conversion := Parameter.convert) :
    Except GenerationError LinkedCall :=
  match signatures.get? target with
  | none => .error (.ofHtml html (.missingFunction target))
  | some parameters => do
      let attributes ← arguments.foldlM
        (Draft.addArgument target html parameters · · convert) Draft.empty
      let draft ← slots.foldlM (Draft.addSlot target html parameters) attributes
      let ordered ← parameters.mapM (draft.argument target html)
      return ⟨⟨target, ordered⟩, draft.usedSlots, draft.events⟩

end Stencil
