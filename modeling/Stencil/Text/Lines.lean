namespace Stencil.Text

/-- The lines of a text. A line ends at a line feed, which takes one carriage
return before it along; nothing follows the last line feed of a text that ends
in one. -/
def lines : List Char → List (List Char)
  | [] => []
  | '\n' :: rest => [] :: lines rest
  | '\r' :: '\n' :: rest => [] :: lines rest
  | char :: rest =>
      match lines rest with
      | [] => [[char]]
      | line :: more => (char :: line) :: more

end Stencil.Text
