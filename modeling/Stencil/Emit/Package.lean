import Stencil.Text.Identifier

namespace Stencil.Emit

/-! The file around the generated functions. -/

def keywords : List String :=
  ["break", "case", "chan", "const", "continue", "default", "defer", "else",
    "fallthrough", "for", "func", "go", "goto", "if", "import", "interface",
    "map", "package", "range", "return",
    "select", "struct", "switch", "type", "var"]

def isPackageName (name : String) : Bool :=
  Text.isIdentifier name && !keywords.contains name

def helpers : List String :=
  ["func gtmlFor[T any](items []T, render func(int, T) string) string \x7b",
    "\tvar builder strings.Builder",
    "\tfor i, item := range items \x7b",
    "\t\tbuilder.WriteString(render(i, item))",
    "\t\x7d",
    "\treturn builder.String()",
    "\x7d",
    "",
    "func gtmlIf(condition bool, render func() string) string \x7b",
    "\tif condition \x7b",
    "\t\treturn render()",
    "\t\x7d",
    "\treturn \"\"",
    "\x7d",
    "",
    "func gtmlElse(condition bool, render func() string) string \x7b",
    "\tif !condition \x7b",
    "\t\treturn render()",
    "\t\x7d",
    "\treturn \"\"",
    "\x7d",
    "",
    "func gtmlSlot(render func() string) string \x7b",
    "\treturn render()",
    "\x7d",
    "",
    "func gtmlEscape(value any) string \x7b",
    "\treturn html.EscapeString(fmt.Sprint(value))",
    "\x7d",
    "",
    "func gtmlRaw(value any) string \x7b",
    "\treturn fmt.Sprint(value)",
    "\x7d",
    "",
    "func gtmlRawAttr(value any) string \x7b",
    "\treturn strings.NewReplacer(`\"`, \"&#34;\", \"'\", \"&#39;\")" ++
      ".Replace(fmt.Sprint(value))",
    "\x7d"]

def header (package : String) : List String :=
  ["// Code generated by gtml. DO NOT EDIT.", "", "package " ++ package, "",
    "import (", "\t\"fmt\"", "\t\"html\"", "\t\"strings\"", ")", ""]

def file (package : String) (functions : List String) : String :=
  String.join ((header package ++ helpers).map fun line => line ++ "\n") ++
    String.join (functions.map fun function => "\n" ++ function ++ "\n")

end Stencil.Emit
