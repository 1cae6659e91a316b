import Stencil.Source
import Stencil.Token.Basic
import Stencil.Token.Cursor

namespace Stencil

open Text

namespace Token

/-! Reading tokens. Every reader takes at least one character, so reading
ends. -/

inductive Problem where
  | unterminatedComment
  | unterminatedDeclaration
  | unterminatedEndTag (name : String)
  | unterminatedTag (name : String)
  | unterminatedValue (attr tag : String)
  deriving DecidableEq, Repr

def Problem.message : Problem → String
  | .unterminatedComment => "Unterminated comment"
  | .unterminatedDeclaration => "Unterminated declaration"
  | .unterminatedEndTag name => "Unterminated end tag '</" ++ name ++ "'"
  | .unterminatedTag name => "Unterminated tag '<" ++ name ++ "'"
  | .unterminatedValue attr tag =>
      "Unterminated value for attribute '" ++ attr ++ "' on '<" ++ tag ++ "'"

structure Failure where
  problem : Problem
  offset : Nat
  deriving DecidableEq, Repr

def isNamePart (char : Char) : Bool :=
  char.isAlphanum || char == '-' || char == '_' || char == ':' || char == '.'

def isAttributeNamePart (char : Char) : Bool :=
  !(isTagBlank char || char == '=' || char == '>' || char == '/')

def isUnquotedPart (char : Char) : Bool :=
  !(isTagBlank char || char == '>')

/-- Markup begins here: a start tag, an end tag, a comment or a declaration. -/
def beginsMarkup : List Char → Bool
  | '<' :: '!' :: _ => true
  | '<' :: '/' :: letter :: _ => letter.isAlpha
  | '<' :: letter :: _ => letter.isAlpha
  | _ => false

def readQuoted (failure : Failure) (quote : Quote) (mark : Char)
    (cursor : Cursor) :
    Except Failure (Attribute.Value × Cursor) :=
  let inside := cursor.advance 1
  let stop := inside.skipWhile fun char => char != mark
  match stop.rest with
  | [] => .error failure
  | _ :: _ =>
      .ok (⟨String.ofList (inside.rest.takeWhile fun char => char != mark),
        quote,
        ⟨inside.offset, stop.offset⟩⟩, stop.advance 1)

def readUnquoted (failure : Failure) (cursor : Cursor) :
    Except Failure (Attribute.Value × Cursor) :=
  let stop := cursor.skipWhile isUnquotedPart
  match stop.rest with
  | [] => .error failure
  | _ :: _ =>
      .ok (⟨String.ofList (cursor.rest.takeWhile isUnquotedPart), .unquoted,
        ⟨cursor.offset, stop.offset⟩⟩, stop)

/-- The name of the attribute that begins here. It is empty when the equals sign
comes first. -/
def attributeName : List Char → List Char
  | [] => []
  | '=' :: _ => []
  | first :: rest => first :: rest.takeWhile isAttributeNamePart

def readValue (name tag : String) (start tagStart : Nat) (cursor : Cursor) :
    Except Failure (Attribute.Value × Cursor) :=
  match cursor.rest with
  | '"' :: _ =>
      readQuoted ⟨.unterminatedValue name tag, start⟩ .double '"' cursor
  | '\'' :: _ =>
      readQuoted ⟨.unterminatedValue name tag, start⟩ .single '\'' cursor
  | _ => readUnquoted ⟨.unterminatedTag tag, tagStart⟩ cursor

/-- Reads an attribute of the tag `tag`, which begins at `tagStart`. An
attribute without a value reaches up to whatever follows its name. -/
def readAttribute (tag : String) (tagStart : Nat) (cursor : Cursor) :
    Except Failure (Attribute × Cursor) :=
  let nameChars := attributeName cursor.rest
  let name := String.ofList nameChars
  let afterName := (cursor.advance nameChars.length).skipWhile isTagBlank
  match afterName.rest with
  | '=' :: _ =>
      (readValue name tag cursor.offset tagStart
        ((afterName.advance 1).skipWhile isTagBlank)).map fun (value, stop) =>
          (⟨name, some value, ⟨cursor.offset, stop.offset⟩⟩, stop)
  | _ => .ok (⟨name, none, ⟨cursor.offset, afterName.offset⟩⟩, afterName)

theorem length_readQuoted_le {failure : Failure} {quote : Quote} {mark : Char}
    {cursor stop : Cursor} {value : Attribute.Value}
    (read : readQuoted failure quote mark cursor = .ok (value, stop)) :
    stop.rest.length ≤ cursor.rest.length := by
  have inside := (cursor.advance 1).length_skipWhile_le fun char => char != mark
  rw [Cursor.length_advance] at inside
  unfold readQuoted at read
  dsimp only at read
  split at read
  · cases read
  · simp only [Except.ok.injEq, Prod.mk.injEq] at read
    rw [← read.2, Cursor.length_advance]
    omega

theorem length_readUnquoted_le {failure : Failure} {cursor stop : Cursor}
    {value : Attribute.Value}
    (read : readUnquoted failure cursor = .ok (value, stop)) :
    stop.rest.length ≤ cursor.rest.length := by
  unfold readUnquoted at read
  dsimp only at read
  split at read
  · cases read
  · simp only [Except.ok.injEq, Prod.mk.injEq] at read
    rw [← read.2]
    exact cursor.length_skipWhile_le isUnquotedPart

theorem length_readValue_le {name tag : String} {start tagStart : Nat}
    {cursor stop : Cursor} {value : Attribute.Value}
    (read : readValue name tag start tagStart cursor = .ok (value, stop)) :
    stop.rest.length ≤ cursor.rest.length := by
  unfold readValue at read
  split at read
  · exact length_readQuoted_le read
  · exact length_readQuoted_le read
  · exact length_readUnquoted_le read

theorem length_readAttribute_lt {tag : String} {tagStart : Nat}
    {cursor stop : Cursor} {attr : Attribute} (more : cursor.rest ≠ [])
    (read : readAttribute tag tagStart cursor = .ok (attr, stop)) :
    stop.rest.length < cursor.rest.length := by
  unfold readAttribute at read
  dsimp only at read
  have afterName_le :=
    (cursor.advance (attributeName cursor.rest).length).length_skipWhile_le
      isTagBlank
  rw [Cursor.length_advance] at afterName_le
  generalize afterName_eq :
    (cursor.advance (attributeName cursor.rest).length).skipWhile isTagBlank =
      afterName at *
  split at read
  · rename_i tail equals
    have opening_le := (afterName.advance 1).length_skipWhile_le isTagBlank
    rw [Cursor.length_advance] at opening_le
    have positive := congrArg List.length equals
    simp only [List.length_cons] at positive
    generalize (afterName.advance 1).skipWhile isTagBlank = opening at *
    cases value : readValue (String.ofList (attributeName cursor.rest)) tag
        cursor.offset tagStart
        opening with
    | error failure => simp [value, Except.map] at read
    | ok result =>
        have := length_readValue_le value
        simp only [value, Except.map, Except.ok.injEq, Prod.mk.injEq] at read
        rw [← read.2]
        omega
  · rename_i notEquals
    simp only [Except.ok.injEq, Prod.mk.injEq] at read
    rw [← read.2]
    rcases chars : cursor.rest with _ | ⟨first, rest⟩
    · exact absurd chars more
    · by_cases equals : first = '='
      · exfalso
        subst equals
        refine notEquals rest ?_
        rw [← afterName_eq]
        simp [chars, attributeName, Cursor.advance, Cursor.skipWhile,
          isTagBlank]
      · rw [chars] at afterName_le
        have taken : 0 < (attributeName (first :: rest)).length := by
          unfold attributeName
          split <;> simp_all
        simp only [List.length_cons] at *
        omega

/-- Reads the attributes of a tag and its closing bracket, from behind the
blanks; tells whether the tag is self-closing. -/
def readAttributes (tag : String) (tagStart : Nat) (cursor : Cursor) :
    Except Failure (List Attribute × Bool × Cursor) :=
  match _rest : cursor.rest with
  | [] => .error ⟨.unterminatedTag tag, tagStart⟩
  | '>' :: _ => .ok ([], false, cursor.advance 1)
  | '/' :: '>' :: _ => .ok ([], true, cursor.advance 2)
  | '/' :: _ =>
      readAttributes tag tagStart ((cursor.advance 1).skipWhile isTagBlank)
  | _ :: _ =>
      match _read : readAttribute tag tagStart cursor with
      | .error failure => .error failure
      | .ok (attr, next) =>
          (readAttributes tag tagStart (next.skipWhile isTagBlank)).map
            fun (attributes, selfClosing, stop) =>
              (attr :: attributes, selfClosing, stop)
termination_by cursor.rest.length
decreasing_by
  · have shorter := (cursor.advance 1).length_skipWhile_le isTagBlank
    have positive := congrArg List.length _rest
    rw [Cursor.length_advance] at shorter
    simp only [List.length_cons] at positive
    omega
  · have shorter := next.length_skipWhile_le isTagBlank
    have read_lt :=
      length_readAttribute_lt (by rw [_rest]; exact List.cons_ne_nil _ _) _read
    omega

def readRawText (name : List Char) (cursor : Cursor) : List Token × Cursor :=
  let closing := beginsWithIgnoringCase ('<' :: '/' :: name)
  let stop := cursor.skipUntil closing
  match takeUntil closing cursor.rest with
  | [] => ([], stop)
  | chars =>
      ([⟨.text (String.ofList chars), ⟨cursor.offset, stop.offset⟩⟩], stop)

def readStartTag (cursor : Cursor) : Except Failure (List Token × Cursor) := do
  let opening := cursor.advance 1
  let nameChars := opening.rest.takeWhile isNamePart
  let name := String.ofList nameChars
  let (attributes, selfClosing, stop) ←
    readAttributes name cursor.offset
      ((opening.skipWhile isNamePart).skipWhile isTagBlank)
  let token : Token :=
    ⟨.startTag ⟨name, attributes, selfClosing⟩, ⟨cursor.offset, stop.offset⟩⟩
  if isRawTextElement name && !selfClosing then
    let (raw, after) := readRawText nameChars stop
    return (token :: raw, after)
  else
    return ([token], stop)

def readEndTag (cursor : Cursor) : Except Failure (List Token × Cursor) :=
  let opening := cursor.advance 2
  let name := String.ofList (opening.rest.takeWhile isNamePart)
  let stop := (opening.skipWhile isNamePart).skipWhile fun char => char != '>'
  match stop.rest with
  | [] => .error ⟨.unterminatedEndTag name, cursor.offset⟩
  | _ :: _ =>
      let after := stop.advance 1
      .ok ([⟨.endTag name, ⟨cursor.offset, after.offset⟩⟩], after)

def readComment (cursor : Cursor) : Except Failure (List Token × Cursor) :=
  let opening := cursor.advance 4
  let closing := beginsWith ['-', '-', '>']
  let stop := opening.skipUntil closing
  match stop.rest with
  | [] => .error ⟨.unterminatedComment, cursor.offset⟩
  | _ :: _ =>
      let after := stop.advance 3
      .ok ([⟨.comment (String.ofList (takeUntil closing opening.rest)),
        ⟨cursor.offset, after.offset⟩⟩], after)

def readDoctype (cursor : Cursor) : Except Failure (List Token × Cursor) :=
  let opening := cursor.advance 2
  let stop := opening.skipWhile fun char => char != '>'
  match stop.rest with
  | [] => .error ⟨.unterminatedDeclaration, cursor.offset⟩
  | _ :: _ =>
      let after := stop.advance 1
      .ok ([⟨.doctype (String.ofList
          (trim (opening.rest.takeWhile fun char => char != '>'))),
        ⟨cursor.offset, after.offset⟩⟩], after)

/-- Reads the text up to the next markup; its first character is text whatever
it is. -/
def readText (cursor : Cursor) : List Token × Cursor :=
  let second := cursor.advance 1
  let stop := second.skipUntil beginsMarkup
  ([⟨.text (String.ofList
    (cursor.rest.take 1 ++ takeUntil beginsMarkup second.rest)),
    ⟨cursor.offset, stop.offset⟩⟩], stop)

def readNext (cursor : Cursor) : Except Failure (List Token × Cursor) :=
  if beginsMarkup cursor.rest then
    match cursor.rest with
    | '<' :: '!' :: '-' :: '-' :: _ => readComment cursor
    | '<' :: '!' :: _ => readDoctype cursor
    | '<' :: '/' :: _ => readEndTag cursor
    | _ => readStartTag cursor
  else .ok (readText cursor)

theorem length_readAttributes_le {tag : String} {tagStart : Nat}
    {cursor stop : Cursor} {attributes : List Attribute} {selfClosing : Bool}
    (read : readAttributes tag tagStart cursor =
      .ok (attributes, selfClosing, stop)) :
    stop.rest.length ≤ cursor.rest.length := by
  fun_induction readAttributes tag tagStart cursor
    generalizing attributes selfClosing stop with
  | case1 => cases read
  | case2 cursor tail rest =>
      simp only [Except.ok.injEq, Prod.mk.injEq] at read
      rw [← read.2.2, Cursor.length_advance]
      omega
  | case3 cursor tail rest =>
      simp only [Except.ok.injEq, Prod.mk.injEq] at read
      rw [← read.2.2, Cursor.length_advance]
      omega
  | case4 cursor tail _ rest induction =>
      have := induction read
      have := (cursor.advance 1).length_skipWhile_le isTagBlank
      rw [Cursor.length_advance] at this
      omega
  | case5 => cases read
  | case6 cursor first tail _ _ _ rest attr next readFirst induction =>
      have := length_readAttribute_lt (by rw [rest]; exact List.cons_ne_nil _ _)
        readFirst
      have := next.length_skipWhile_le isTagBlank
      cases readRest : readAttributes tag tagStart
        (next.skipWhile isTagBlank) with
      | error failure => simp [readRest, Except.map] at read
      | ok result =>
          obtain ⟨more, closing, last⟩ := result
          simp only [readRest, Except.map, Except.ok.injEq, Prod.mk.injEq]
            at read
          have := induction readRest
          rw [← read.2.2]
          omega

theorem length_readRawText_le (name : List Char) (cursor : Cursor) :
    (readRawText name cursor).2.rest.length ≤ cursor.rest.length := by
  have :=
    cursor.length_skipUntil_le (beginsWithIgnoringCase ('<' :: '/' :: name))
  unfold readRawText
  dsimp only
  split <;> exact this

theorem length_readNext_lt {cursor next : Cursor} {tokens : List Token}
    (more : cursor.rest ≠ []) (read : readNext cursor = .ok (tokens, next)) :
    next.rest.length < cursor.rest.length := by
  have positive : 0 < cursor.rest.length := List.length_pos_iff.mpr more
  unfold readNext at read
  split at read
  · split at read
    · unfold readComment at read
      dsimp only at read
      split at read
      · cases read
      · rename_i found
        have := congrArg List.length found
        have := (cursor.advance 4).length_skipUntil_le
          (beginsWith ['-', '-', '>'])
        simp only [Except.ok.injEq, Prod.mk.injEq] at read
        rw [← read.2]
        simp only [Cursor.length_advance, List.length_cons] at *
        omega
    · unfold readDoctype at read
      dsimp only at read
      split at read
      · cases read
      · have := (cursor.advance 2).length_skipWhile_le fun char => char != '>'
        simp only [Except.ok.injEq, Prod.mk.injEq] at read
        rw [← read.2]
        simp only [Cursor.length_advance] at *
        omega
    · unfold readEndTag at read
      dsimp only at read
      split at read
      · cases read
      · have :=
          ((cursor.advance 2).skipWhile isNamePart).length_skipWhile_le
            fun char => char != '>'
        have := (cursor.advance 2).length_skipWhile_le isNamePart
        simp only [Except.ok.injEq, Prod.mk.injEq] at read
        rw [← read.2]
        simp only [Cursor.length_advance] at *
        omega
    · unfold readStartTag at read
      simp only [bind, Except.bind] at read
      split at read
      · cases read
      · rename_i result readRest
        obtain ⟨attributes, selfClosing, stop⟩ := result
        have := length_readAttributes_le readRest
        have := ((cursor.advance 1).skipWhile isNamePart).length_skipWhile_le
          isTagBlank
        have := (cursor.advance 1).length_skipWhile_le isNamePart
        rw [Cursor.length_advance] at this
        dsimp only at read
        split at read <;> simp only [pure, Except.pure, Except.ok.injEq,
          Prod.mk.injEq] at read
        · have :=
            length_readRawText_le ((cursor.advance 1).rest.takeWhile isNamePart)
              stop
          rw [← read.2]
          omega
        · rw [← read.2]
          omega
  · simp only [readText, Except.ok.injEq, Prod.mk.injEq] at read
    have := (cursor.advance 1).length_skipUntil_le beginsMarkup
    rw [Cursor.length_advance] at this
    rw [← read.2]
    omega

def scanFrom (cursor : Cursor) : Except Failure (List Token) :=
  match _rest : cursor.rest with
  | [] => .ok [⟨.eof, ⟨cursor.offset, cursor.offset⟩⟩]
  | _ :: _ =>
      match _read : readNext cursor with
      | .error failure => .error failure
      | .ok (tokens, next) => (scanFrom next).map (tokens ++ ·)
termination_by cursor.rest.length
decreasing_by
  exact length_readNext_lt (by rw [_rest]; exact List.cons_ne_nil _ _) _read

def scan (chars : List Char) : Except Failure (List Token) :=
  scanFrom ⟨0, chars⟩

end Token

structure TokenError where
  problem : Token.Problem
  offset : Nat
  position : Position
  deriving DecidableEq, Repr

namespace TokenError

def detail (error : TokenError) : String :=
  error.problem.message

def message (error : TokenError) : String :=
  "Lexer error at line " ++ toString error.position.line ++ ", column " ++
    toString error.position.column ++ ": " ++ error.detail

end TokenError

def Source.tokens (source : Source) : Except TokenError (List Token) :=
  (Token.scan source.chars).mapError fun failure =>
    ⟨failure.problem, failure.offset, source.positionAt failure.offset⟩

end Stencil
