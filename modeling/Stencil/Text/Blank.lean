namespace Stencil.Text

/-! Blank characters, trimming, and splitting a text into words. -/

def isBlank (char : Char) : Bool :=
  let code := char.toNat
  (0x09 ≤ code && code ≤ 0x0D) || code == 0x20 || code == 0x85 ||
    code == 0xA0 ||
    code == 0x1680 || (0x2000 ≤ code && code ≤ 0x200A) || code == 0x2028 ||
    code == 0x2029 ||
    code == 0x202F || code == 0x205F || code == 0x3000

/-- The blanks that separate the parts of a tag: space, tab, line feed, form
feed and carriage return. -/
def isTagBlank (char : Char) : Bool :=
  char == ' ' || char == '\t' || char == '\n' || char == '\x0c' || char == '\r'

def trimStart (chars : List Char) : List Char :=
  chars.dropWhile isBlank

def trimEnd (chars : List Char) : List Char :=
  (chars.reverse.dropWhile isBlank).reverse

def trim (chars : List Char) : List Char :=
  trimEnd (trimStart chars)

def trimmed (text : String) : String :=
  String.ofList (trim text.toList)

theorem length_dropWhile_le (test : Char → Bool) (chars : List Char) :
    (chars.dropWhile test).length ≤ chars.length :=
  (List.dropWhile_sublist test).length_le

def words (chars : List Char) : List (List Char) :=
  match _start : trimStart chars with
  | [] => []
  | first :: rest =>
      (first :: rest.takeWhile fun char => !isBlank char) ::
        words (rest.dropWhile fun char => !isBlank char)
termination_by chars.length
decreasing_by
  have shorter := length_dropWhile_le isBlank chars
  have rest_le := length_dropWhile_le (fun char => !isBlank char) rest
  rw [show chars.dropWhile isBlank = first :: rest from _start] at shorter
  simp only [List.length_cons] at shorter
  omega

end Stencil.Text
