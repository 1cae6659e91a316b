import Stencil.Span
import Stencil.Text.Search

namespace Stencil

/-! The tokens of a template's HTML. -/

inductive Quote where
  | double
  | single
  | unquoted
  deriving DecidableEq, Repr

namespace Attribute

structure Value where
  text : String
  quote : Quote
  span : Span
  deriving DecidableEq, Repr

end Attribute

/-- An attribute of a start tag. A bare attribute has no value. -/
structure Attribute where
  name : String
  value : Option Attribute.Value
  span : Span
  deriving DecidableEq, Repr

namespace Attribute

def text (attr : Attribute) : String :=
  match attr.value with
  | none => ""
  | some value => value.text

end Attribute

structure Tag where
  name : String
  attributes : List Attribute
  selfClosing : Bool
  deriving DecidableEq, Repr

namespace Token

inductive Kind where
  | startTag (tag : Tag)
  | endTag (name : String)
  | text (text : String)
  | comment (text : String)
  | doctype (text : String)
  | eof
  deriving DecidableEq, Repr

end Token

structure Token where
  kind : Token.Kind
  span : Span
  deriving DecidableEq, Repr

def voidElements : List String :=
  ["area", "base", "br", "col", "embed", "hr", "img", "input", "link", "meta",
    "param", "source", "track", "wbr"]

def rawTextElements : List String :=
  ["script", "style"]

def isVoidElement (name : String) : Bool :=
  voidElements.any (Text.sameIgnoringCase name)

def isRawTextElement (name : String) : Bool :=
  rawTextElements.any (Text.sameIgnoringCase name)

end Stencil
