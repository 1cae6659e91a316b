import Stencil.Construct.Basic

namespace Stencil.Construct

/-! Every `_else` answers an `_if` on the same condition before it among the
constructs nearest to the same one, and no `_if` is answered twice. -/

structure Unpaired where
  construct : Construct
  cause : TemplateError.Cause

/-- An `_if` that has come, and whether an `_else` has answered it. -/
structure Pending where
  condition : String
  answered : Bool
  deriving DecidableEq, Repr

/-- Answers the last `_if` on a condition that is not answered. The last one
comes first in the list. -/
def answer? (condition : String) : List Pending → Option (List Pending)
  | [] => none
  | entry :: earlier =>
      if entry.condition = condition ∧ entry.answered = false then
        some ({ entry with answered := true } :: earlier)
      else (answer? condition earlier).map (entry :: ·)

def unpairedAfter (pending : List Pending) :
    List Construct → Option Unpaired
  | [] => none
  | construct :: rest =>
      match construct.kind with
      | .conditional condition =>
          unpairedAfter (⟨condition, false⟩ :: pending) rest
      | .alternative condition =>
          match answer? condition pending with
          | some marked => unpairedAfter marked rest
          | none =>
              if condition ∈ pending.map Pending.condition then
                some ⟨construct, .elseAnswered condition⟩
              else some ⟨construct, .elseUnpaired condition⟩
      | _ => unpairedAfter pending rest

def unpaired? (constructs : List Construct) : Option Unpaired :=
  unpairedAfter [] constructs

end Stencil.Construct
