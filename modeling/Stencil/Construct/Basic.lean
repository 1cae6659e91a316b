import Stencil.AttributeValue
import Stencil.Walk

namespace Stencil

/-! Constructs: the elements of a template that become code. -/

structure Argument where
  name : String
  value : AttributeValue
  span : Span
  deriving DecidableEq, Repr

inductive Construct.Kind where
  | component (name : String)
  | loop (item collection type : String)
  | conditional (condition : String)
  | alternative (condition : String)
  | placeholder (target : String) (arguments : List Argument)
  | slot (name : String)
  deriving DecidableEq, Repr

namespace Construct.Kind

def label : Kind → String
  | .component _ => "component"
  | .loop _ _ _ => "for"
  | .conditional _ => "if"
  | .alternative _ => "else"
  | .placeholder _ _ => "placeholder"
  | .slot _ => "slot"

def parts : Kind → List String
  | .component name => [name]
  | .loop item collection type => [item, "of", collection, type]
  | .conditional condition => [condition]
  | .alternative condition => [condition]
  | .placeholder target _ => [target]
  | .slot name => [name]

def isSlot : Kind → Bool
  | .slot _ => true
  | _ => false

def target? : Kind → Option String
  | .placeholder target _ => some target
  | _ => none

def item? : Kind → Option String
  | .loop item _ _ => some item
  | _ => none

end Construct.Kind

/-- A construct with the constructs nearest to it inside. Its own markup is kept
in runs, one before each of those constructs and one behind the last; a
placeholder has no markup of its own. -/
structure Construct where
  kind : Construct.Kind
  id : Nat
  span : Span
  html : String
  runs : List MarkedText
  children : List Construct

namespace Construct

def markers (construct : Construct) : List Marker :=
  construct.runs.flatMap MarkedText.markers

mutual
def size : Construct → Nat
  | ⟨_, _, _, _, _, children⟩ => 1 + forestSize children

def forestSize : List Construct → Nat
  | [] => 0
  | construct :: rest => construct.size + forestSize rest
end

mutual
def listing (depth : Nat) : Construct → List (Nat × Construct)
  | ⟨kind, id, span, html, runs, children⟩ =>
      (depth, ⟨kind, id, span, html, runs, children⟩) ::
        forestListing (depth + 1) children

def forestListing (depth : Nat) : List Construct → List (Nat × Construct)
  | [] => []
  | construct :: rest => construct.listing depth ++ forestListing depth rest
end

theorem forestSize_eq_total (constructs : List Construct) :
    forestSize constructs = Walk.total size constructs := by
  induction constructs with
  | nil => rfl
  | cons construct rest induction => rw [forestSize, Walk.total, induction]

def walk (construct : Construct) : List Construct :=
  Walk.list children size
    (fun ⟨_, _, _, _, _, children⟩ => by
      rw [size, forestSize_eq_total]
      exact Nat.lt_add_of_pos_left Nat.one_pos)
    [construct]

def targets (construct : Construct) : List String :=
  construct.walk.filterMap fun inner => inner.kind.target?

end Construct

end Stencil
