namespace Stencil

inductive Event where
  | ignoredConstruct (placeholder construct : String)
  | ignoredContent (placeholder content : String)
  | builtTree (kind : String) (constructs : Nat)
  | discoveredComponent (file component : String)
  | derivedSignature (component : String) (parameters : Nat)
  | ignoredArgument (component attr : String)
  | ignoredSlot (component slot : String)
  | generatedFunction (component : String) (parameters constructs : Nat)
  deriving DecidableEq, Repr

namespace Event

def isWarning : Event → Bool
  | .ignoredConstruct _ _ | .ignoredContent _ _ | .ignoredArgument _ _
  | .ignoredSlot _ _ => true
  | .builtTree _ _ | .discoveredComponent _ _ | .derivedSignature _ _
  | .generatedFunction _ _ _ => false

def message : Event → String
  | .ignoredConstruct _ _ =>
      "construct outside `_slot` inside a placeholder is ignored"
  | .ignoredContent _ _ =>
      "content outside `_slot` inside a placeholder is ignored"
  | .builtTree _ _ => "built construct tree"
  | .discoveredComponent _ _ => "discovered component"
  | .derivedSignature _ _ => "derived signature"
  | .ignoredArgument _ _ => "attribute matches no parameter and is ignored"
  | .ignoredSlot _ _ => "slot matches no parameter and is ignored"
  | .generatedFunction _ _ _ => "generated function"

end Event

end Stencil
