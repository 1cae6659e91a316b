import Stencil.Construct.Directive
import Stencil.Construct.Pairing
import Stencil.Event
import Stencil.Markup.Document

namespace Stencil.Construct

open Text

/-! The construct tree of an element. A construct's children are the nearest
constructs inside it, whatever plain elements lie between. -/

structure Progress where
  nextId : Nat
  events : List Event

abbrev Builder := StateT Progress (Except TemplateError)

namespace Builder

/-- Constructs are numbered in the order in which their tags open. -/
def freshId : Builder Nat :=
  modifyGet fun progress =>
    (progress.nextId, { progress with nextId := progress.nextId + 1 })

def tell (events : List Event) : Builder Unit :=
  modify fun progress => { progress with events := progress.events ++ events }

end Builder

/-- The markup between some constructs from `start` to `stop`. Each run is read
as text from its beginning on. -/
def runsBetween (source : Source) (start stop : Nat) :
    List Construct → Except TemplateError (List MarkedText)
  | [] => do
      let run ← source.marked ⟨start, stop⟩ .text
      return [run]
  | construct :: rest => do
      let run ← source.marked ⟨start, construct.span.start⟩ .text
      let runs ← runsBetween source construct.span.stop stop rest
      return run :: runs

def textBetween (source : Source) (start stop : Nat) :
    List Construct → Except TemplateError (List Char)
  | [] => source.slice ⟨start, stop⟩
  | construct :: rest => do
      let before ← source.slice ⟨start, construct.span.start⟩
      let after ← textBetween source construct.span.stop stop rest
      return before ++ after

def withoutEndTag (name : String) (chars : List Char) : List Char :=
  let closing := '<' :: '/' :: name.toList ++ ['>']
  let kept := chars.take (chars.length - closing.length)
  let last := chars.drop (chars.length - closing.length)
  if last.map Char.toLower == closing.map Char.toLower then kept else chars

def dropped (element : Element) (target : String) (inner : List Construct)
    (outside : List Char) :
    List Event :=
  let constructs := (inner.filter fun construct => !construct.kind.isSlot).map
      fun construct => Event.ignoredConstruct target construct.kind.label
  match trim (withoutEndTag element.name (trim outside)) with
  | [] => constructs
  | content => constructs ++ [.ignoredContent target (String.ofList content)]

/-- A placeholder passes on slots only; all else inside it is dropped. -/
def passSlots (source : Source) (element : Element) (target : String)
    (inner : List Construct) :
    Builder (List Construct) := do
  let slots := inner.filter fun construct => construct.kind.isSlot
  let outside ← textBetween source element.tagSpan.stop element.span.stop slots
  Builder.tell (dropped element target inner outside)
  return slots

def requirePairs (source : Source) (constructs : List Construct) :
    Except TemplateError Unit :=
  match unpaired? constructs with
  | none => .ok ()
  | some unpaired =>
      .error (source.error unpaired.construct.span unpaired.cause)

def assemble (source : Source) (element : Element) (kind : Kind) (id : Nat)
    (inner : List Construct) : Builder Construct := do
  let (runs, children) ← match kind with
    | .placeholder target _ => do
        let slots ← passSlots source element target inner
        pure ([], slots)
    | _ => do
        let runs ← runsBetween source element.span.start element.span.stop inner
        pure (runs, inner)
  requirePairs source children
  let html ← source.slice element.span
  return ⟨kind, id, element.span, String.ofList html, runs, children⟩

mutual
def ofNode (scope : Scope) : Node → Builder (List Construct)
  | .element tag tagSpan span children => do
      let element : Element := ⟨tag, tagSpan, span, children⟩
      match ← scope.kind? element false with
      | none => ofNodes scope children
      | some kind => do
          let id ← Builder.freshId
          let inner ← ofNodes scope children
          let construct ← assemble scope.source element kind id inner
          return [construct]
  | .text _ | .comment _ | .doctype _ => pure []

def ofNodes (scope : Scope) : List Node → Builder (List Construct)
  | [] => pure []
  | node :: rest => do
      let first ← ofNode scope node
      let more ← ofNodes scope rest
      return first ++ more
end

def ofRoot (scope : Scope) (root : Element) : Builder Construct := do
  match ← scope.kind? root true with
  | none => throw (scope.source.error root.tagSpan (.notConstruct root.name))
  | some kind => do
      let id ← Builder.freshId
      let inner ← ofNodes scope root.children
      assemble scope.source root kind id inner

def declaredName? (element : Element) : Option String :=
  (element.attribute? Directive.component.name).map fun attr =>
    trimmed attr.text

def build (source : Source) (root : Element) (known : List String) :
    Except TemplateError (Construct × List Event) := do
  let (construct, progress)
    ← (ofRoot ⟨source, known, declaredName? root⟩ root).run ⟨0, []⟩
  return (construct, progress.events ++
    [.builtTree construct.kind.label construct.walk.length])

def ofText (text : String) (known : List String) :
    Except TemplateError (Construct × List Event) := do
  let source := Source.ofText text
  let document ← Document.parse source
  match document.elements with
  | [] => .error (source.error source.whole .noElement)
  | root :: _ => build source root known

end Stencil.Construct
