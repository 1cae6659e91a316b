import Stencil.Text.Lines

namespace Stencil.Emit

def indentLine (line : String) : String :=
  if line.isEmpty then line else "\t" ++ line

def indentLines (lines : List String) : List String :=
  lines.map indentLine

def joinLines (lines : List String) : String :=
  "\n".intercalate lines

/-- A text one tab further in; empty lines stay empty. -/
def indent (text : String) : String :=
  joinLines (indentLines ((Text.lines text.toList).map String.ofList))

end Stencil.Emit
