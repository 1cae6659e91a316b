import Stencil.Text.Search

namespace Stencil.Text

/-! Identifiers and dotted paths, both of ASCII characters only. -/

def isIdentifierStart (char : Char) : Bool :=
  char.isAlpha || char == '_'

def isIdentifierPart (char : Char) : Bool :=
  char.isAlphanum || char == '_'

def spellsIdentifier : List Char → Bool
  | [] => false
  | first :: rest => isIdentifierStart first && rest.all isIdentifierPart

def isIdentifier (text : String) : Bool :=
  spellsIdentifier text.toList

def spellsPath (chars : List Char) : Bool :=
  (split '.' chars).all spellsIdentifier

def isPath (text : String) : Bool :=
  spellsPath text.toList

end Stencil.Text
