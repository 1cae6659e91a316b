import Stencil.Token.Basic
import Stencil.Walk

namespace Stencil

/-! The tree of a template's markup. -/

inductive Node where
  | element (tag : Tag) (tagSpan span : Span) (children : List Node)
  | text (span : Span)
  | comment (span : Span)
  | doctype (span : Span)

structure Element where
  tag : Tag
  tagSpan : Span
  span : Span
  children : List Node

namespace Node

def span : Node → Span
  | .element _ _ span _ => span
  | .text span => span
  | .comment span => span
  | .doctype span => span

def element? : Node → Option Element
  | .element tag tagSpan span children => some ⟨tag, tagSpan, span, children⟩
  | _ => none

mutual
def size : Node → Nat
  | .element _ _ _ children => 1 + forestSize children
  | _ => 1

def forestSize : List Node → Nat
  | [] => 0
  | node :: rest => node.size + forestSize rest
end

mutual
def listing (depth : Nat) : Node → List (Nat × Node)
  | .element tag tagSpan span children =>
      (depth, .element tag tagSpan span children) ::
        forestListing (depth + 1) children
  | node => [(depth, node)]

def forestListing (depth : Nat) : List Node → List (Nat × Node)
  | [] => []
  | node :: rest => node.listing depth ++ forestListing depth rest
end

end Node

namespace Element

def name (element : Element) : String :=
  element.tag.name

def among (nodes : List Node) : List Element :=
  nodes.filterMap Node.element?

def elements (element : Element) : List Element :=
  among element.children

def size (element : Element) : Nat :=
  1 + Node.forestSize element.children

theorem total_among_le (nodes : List Node) :
    Walk.total size (among nodes) ≤ Node.forestSize nodes := by
  induction nodes with
  | nil => simp [among, Walk.total]
  | cons node rest induction =>
      unfold among at induction ⊢
      cases node <;>
        simp only [List.filterMap_cons, Node.element?, Walk.total,
          Node.forestSize, Node.size, size] <;>
        omega

theorem total_elements_lt (element : Element) :
    Walk.total size element.elements < element.size := by
  have := total_among_le element.children
  unfold elements
  rw [size]
  omega

def attribute? (element : Element) (name : String) : Option Attribute :=
  element.tag.attributes.find? fun attr => Text.sameIgnoringCase attr.name name

def contains (outer inner : Element) : Bool :=
  outer.span.covers inner.span

def walk (depth : Nat) (elements : List Element) : List (Nat × Element) :=
  Walk.list (fun (depth, element) => element.elements.map fun child =>
    (depth + 1, child))
    (fun (_, element) => element.size)
    (fun (_, element) => by
      rw [Walk.total_map]
      exact element.total_elements_lt)
    (elements.map fun element => (depth, element))

def descendants (element : Element) : List (Nat × Element) :=
  walk 1 element.elements

def select (element : Element) (name : String) : List Element :=
  (element.descendants.map Prod.snd).filter fun inner =>
    (inner.attribute? name).isSome

end Element

end Stencil
