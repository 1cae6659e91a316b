import Stencil.Call
import Stencil.Emit.Indent

namespace Stencil

/-! The code of a construct: a closure, or a function for a component, that
writes the construct's markup piece by piece. -/

inductive Segment where
  | markup (text : String)
  | code (expression : String)
  deriving DecidableEq, Repr

namespace Segment

def ofText (chars : List Char) : List Segment :=
  match chars with
  | [] => []
  | chars => [.markup (String.ofList chars)]

/-- The expression that renders a marker. What a rune pipes through is not
escaped, but keeps its place inside a tag. -/
def expression : Marker → String
  | .interpolation inner => "gtmlEscape(" ++ inner.value ++ ")"
  | .rune inner =>
      match inner.kind, inner.location with
      | .prop, _ | .val, _ => "gtmlEscape(" ++ inner.value ++ ")"
      | .slot, _ => inner.value
      | .pipe, .tag => "gtmlRawAttr(" ++ inner.value ++ ")"
      | .pipe, .text => "gtmlRaw(" ++ inner.value ++ ")"

def ofMarked (marked : MarkedText) : List Segment :=
  ofText marked.lead ++
    marked.tail.flatMap fun (marker, chars) => .code (expression marker) ::
      ofText chars

def weave : List MarkedText → List String → List Segment
  | run :: runs, call :: calls => ofMarked run ++ .code call :: weave runs calls
  | runs, [] => runs.flatMap ofMarked
  | [], calls => calls.map .code

def text : Segment → String
  | .markup text => Emit.quote text
  | .code expression => expression

end Segment

/-- The code of a construct, as lines, and the expression that renders it inside
another one. -/
structure Declaration where
  name : String
  builder : String
  segments : List Segment
  call : String
  lines : List String
  events : List Event
  inner : List Declaration

namespace Declaration

def code (declaration : Declaration) : String :=
  Emit.joinLines declaration.lines

def body (builder : String) (inner : List Declaration)
    (segments : List Segment) : List String :=
  ("\tvar " ++ builder ++ " strings.Builder") ::
    inner.flatMap (fun declaration => Emit.indentLines declaration.lines) ++
    segments.map (fun segment => "\t" ++ builder ++ ".WriteString(" ++
      segment.text ++ ")") ++
    ["\treturn " ++ builder ++ ".String()"]

def callBody (linked : LinkedCall) (slots : List (String × Declaration)) :
    List String :=
  (slots.filter fun (name, _) => linked.usedSlots.contains name).flatMap
      (fun (_, slot) => Emit.indentLines slot.lines) ++
    ["\treturn " ++ linked.call.text]

def elementType (type : String) : String :=
  match type.toList with
  | '[' :: ']' :: rest => String.ofList rest
  | _ => type

mutual
def listing (depth : Nat) : Declaration → List (Nat × Declaration)
  | ⟨name, builder, segments, call, lines, events, inner⟩ =>
      (depth, ⟨name, builder, segments, call, lines, events, inner⟩) ::
        forestListing (depth + 1) inner

def forestListing (depth : Nat) : List Declaration → List (Nat × Declaration)
  | [] => []
  | declaration :: rest => declaration.listing depth ++ forestListing depth rest
end

mutual
def allEvents : Declaration → List Event
  | ⟨_, _, _, _, _, events, inner⟩ => forestEvents inner ++ events

def forestEvents : List Declaration → List Event
  | [] => []
  | declaration :: rest => declaration.allEvents ++ forestEvents rest
end

def slots (constructs : List Construct) (declarations : List Declaration) :
    List (String × Declaration) :=
  (constructs.zip declarations).filterMap fun (construct, declaration) =>
    match construct.kind with
    | .slot name => some (name, declaration)
    | _ => none

def nameOf (kind : Construct.Kind) (id : Nat) : String :=
  match kind with
  | .component name => name
  | _ => kind.label ++ toString id

def builderOf (kind : Construct.Kind) (id : Nat) : String :=
  match kind with
  | .component _ => "builder"
  | _ => nameOf kind id ++ "Builder"

structure Frame where
  header : String
  call : String
  deriving DecidableEq, Repr

def closure (name : String) : String :=
  name ++ " := func() string"

def frame (signatures : Signatures) (kind : Construct.Kind)
    (name html : String) :
    Except GenerationError Frame :=
  match kind with
  | .component component =>
      match signatures.get? component with
      | none => .error (.ofHtml html (.missingSignature component))
      | some parameters =>
          .ok ⟨"func " ++ component ++ "(" ++
            ", ".intercalate (parameters.map Parameter.text) ++
            ") string", component⟩
  | .loop item collection type =>
      .ok ⟨name ++ " := func(_ int, " ++ item ++ " " ++ elementType type ++
        ") string",
        "gtmlFor(" ++ collection ++ ", " ++ name ++ ")"⟩
  | .conditional condition =>
      .ok ⟨closure name, "gtmlIf(" ++ condition ++ ", " ++ name ++ ")"⟩
  | .alternative condition =>
      .ok ⟨closure name, "gtmlElse(" ++ condition ++ ", " ++ name ++ ")"⟩
  | .placeholder _ _ => .ok ⟨closure name, name ++ "()"⟩
  | .slot _ => .ok ⟨closure name, "gtmlSlot(" ++ name ++ ")"⟩

structure Content where
  segments : List Segment
  body : List String
  events : List Event

/-- The content of a construct whose inner constructs are declared. A
placeholder makes a call; the others write their markup. -/
def content (signatures : Signatures) (construct : Construct)
    (builder : String) (inner : List Declaration)
    (convert : Conversion := Parameter.convert) :
    Except GenerationError Content :=
  match construct.kind with
  | .placeholder target arguments =>
      let slots := slots construct.children inner
      (Call.link signatures target construct.html arguments
        (slots.map fun (name, slot) => ⟨name, slot.call⟩) convert).map
        fun linked => ⟨[], callBody linked slots, linked.events⟩
  | _ =>
      let segments := Segment.weave construct.runs (inner.map Declaration.call)
      .ok ⟨segments, body builder inner segments, []⟩

mutual
def ofConstruct (signatures : Signatures) (construct : Construct)
    (convert : Conversion := Parameter.convert) :
    Except GenerationError Declaration :=
  match construct with
  | ⟨kind, id, span, html, runs, children⟩ => do
      let inner ← ofConstructs signatures children convert
      let name := nameOf kind id
      let builder := builderOf kind id
      let content ← content signatures
        ⟨kind, id, span, html, runs, children⟩ builder inner convert
      let frame ← frame signatures kind name html
      let lines := (frame.header ++ " \x7b") :: content.body ++ ["\x7d"]
      return ⟨name, builder, content.segments, frame.call, lines,
        content.events, inner⟩

def ofConstructs (signatures : Signatures) (constructs : List Construct)
    (convert : Conversion := Parameter.convert) :
    Except GenerationError (List Declaration) :=
  match constructs with
  | [] => .ok []
  | construct :: rest => do
      let first ← ofConstruct signatures construct convert
      let more ← ofConstructs signatures rest convert
      return first :: more
end

end Declaration

end Stencil
