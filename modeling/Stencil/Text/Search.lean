namespace Stencil.Text

/-! Letters compared without regard to ASCII case, searches for the first place
where something begins, and splitting at a character. -/

def sameIgnoringCase (left right : String) : Bool :=
  left.toList.map Char.toLower == right.toList.map Char.toLower

def beginsWith (pattern chars : List Char) : Bool :=
  pattern.isPrefixOf chars

def beginsWithIgnoringCase (pattern chars : List Char) : Bool :=
  (chars.take pattern.length).map Char.toLower == pattern.map Char.toLower

/-- The characters before the first place where `found` holds of what is left,
or all. -/
def takeUntil (found : List Char → Bool) : List Char → List Char
  | [] => []
  | char :: rest =>
      if found (char :: rest) then [] else char :: takeUntil found rest

def dropUntil (found : List Char → Bool) : List Char → List Char
  | [] => []
  | char :: rest =>
      if found (char :: rest) then char :: rest else dropUntil found rest

@[simp] theorem takeUntil_append_dropUntil (found : List Char → Bool)
    (chars : List Char) :
    takeUntil found chars ++ dropUntil found chars = chars := by
  induction chars with
  | nil => rfl
  | cons char rest induction =>
      by_cases here : found (char :: rest) <;>
        simp [takeUntil, dropUntil, here, induction]

theorem length_dropUntil_le (found : List Char → Bool) (chars : List Char) :
    (dropUntil found chars).length ≤ chars.length := by
  have whole := congrArg List.length (takeUntil_append_dropUntil found chars)
  rw [List.length_append] at whole
  omega

def split (separator : Char) : List Char → List (List Char)
  | [] => [[]]
  | char :: rest =>
      if char = separator then [] :: split separator rest
      else
        match split separator rest with
        | [] => [[char]]
        | part :: parts => (char :: part) :: parts

end Stencil.Text
