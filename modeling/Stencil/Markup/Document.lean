import Stencil.Markup.Node
import Stencil.TemplateError

namespace Stencil

/-! The markup tree of a source, built from its tokens. -/

structure Document where
  nodes : List Node

namespace Document

structure Opened where
  tag : Tag
  tagSpan : Span
  children : List Node

/-- A document up to some token: the elements that are open, innermost first,
and the top-level nodes that are complete. -/
structure Draft where
  opened : List Opened
  nodes : List Node

namespace Draft

def empty : Draft := ⟨[], []⟩

def add (draft : Draft) (node : Node) : Draft :=
  match draft.opened with
  | [] => ⟨[], draft.nodes ++ [node]⟩
  | top :: below =>
      ⟨{ top with children := top.children ++ [node] } :: below, draft.nodes⟩

def close (draft : Draft) (stop : Nat) : Draft :=
  match draft.opened with
  | [] => draft
  | top :: below =>
      add ⟨below, draft.nodes⟩
        (.element top.tag top.tagSpan
          ⟨top.tagSpan.start, max stop top.tagSpan.stop⟩ top.children)

def closeMany (draft : Draft) (stop : Nat) : Nat → Draft
  | 0 => draft
  | count + 1 => closeMany (draft.close stop) stop count

/-- Takes the next token. An end tag ends the innermost open element of its name
and all elements inside that one; one that names a void element is passed
over. -/
def step (source : Source) (draft : Draft) (token : Token) :
    Except TemplateError Draft :=
  match token.kind with
  | .startTag tag =>
      if tag.selfClosing || isVoidElement tag.name then
        .ok (draft.add (.element tag token.span token.span []))
      else
        .ok ⟨⟨tag, token.span, []⟩ :: draft.opened, draft.nodes⟩
  | .endTag name =>
      match draft.opened.findIdx? fun opened =>
          Text.sameIgnoringCase opened.tag.name name with
      | some inner =>
          .ok ((draft.closeMany token.span.start inner).close token.span.stop)
      | none =>
          if isVoidElement name then .ok draft
          else .error (source.error token.span (.strayEndTag name))
  | .text _ => .ok (draft.add (.text token.span))
  | .comment _ => .ok (draft.add (.comment token.span))
  | .doctype _ => .ok (draft.add (.doctype token.span))
  | .eof => .ok (draft.closeMany token.span.stop draft.opened.length)

end Draft

def parse (source : Source) : Except TemplateError Document := do
  let tokens ← source.tokens.mapError fun error =>
    { cause := .token error.problem, position := error.position,
      excerpt := source.excerpt ⟨error.offset, source.length⟩, file := none }
  let draft ← tokens.foldlM (Draft.step source) Draft.empty
  return ⟨draft.nodes⟩

def elements (document : Document) : List Element :=
  Element.among document.nodes

def listing (document : Document) : List (Nat × Node) :=
  Node.forestListing 0 document.nodes

def descendants (document : Document) : List (Nat × Element) :=
  Element.walk 1 document.elements

def select (document : Document) (name : String) : List Element :=
  (document.descendants.map Prod.snd).filter fun element =>
    (element.attribute? name).isSome

end Document

end Stencil
