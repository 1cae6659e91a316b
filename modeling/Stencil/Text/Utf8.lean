namespace Stencil.Text

/-! Byte offsets into the UTF-8 form of a text. A cut is possible between
characters only. -/

def byteLength : List Char → Nat
  | [] => 0
  | char :: rest => char.utf8Size + byteLength rest

@[simp] theorem byteLength_nil : byteLength [] = 0 := rfl

@[simp] theorem byteLength_cons (char : Char) (rest : List Char) :
    byteLength (char :: rest) = char.utf8Size + byteLength rest := rfl

@[simp] theorem byteLength_append (left right : List Char) :
    byteLength (left ++ right) = byteLength left + byteLength right := by
  induction left with
  | nil => simp
  | cons char rest induction => simp [induction, Nat.add_assoc]

/-- What follows the first `count` bytes, unless they end inside a character or
past the end. -/
def dropBytes? : List Char → Nat → Option (List Char)
  | chars, 0 => some chars
  | [], _ => none
  | char :: rest, count =>
      if char.utf8Size ≤ count then
        dropBytes? rest (count - char.utf8Size) else none

def takeBytes? : List Char → Nat → Option (List Char)
  | _, 0 => some []
  | [], _ => none
  | char :: rest, count =>
      if char.utf8Size ≤ count then
        (takeBytes? rest (count - char.utf8Size)).map (char :: ·)
      else none

/-- The text from byte `start` to byte `stop`, when both are cuts of the text in
this order. -/
def slice? (chars : List Char) (start stop : Nat) : Option (List Char) :=
  if start ≤ stop then
    (dropBytes? chars start).bind fun rest => takeBytes? rest (stop - start)
  else none

end Stencil.Text
