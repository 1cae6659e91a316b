namespace Stencil.Text

def excerptLimit : Nat := 60

def excerpt (chars : List Char) : String :=
  if chars.length ≤ excerptLimit then String.ofList chars
  else String.ofList (chars.take excerptLimit) ++ "..."

end Stencil.Text
