import Stencil.Token.Scan

namespace Stencil.Token

open Text

/-! What the readers of single tokens take, and which of them reads what is
next. -/

variable {cursor next : Cursor} {tokens : List Token}

theorem readEndTag_eq_ok :
    readEndTag cursor = .ok (tokens, next) ↔
      (((cursor.advance 2).skipWhile isNamePart).skipWhile fun char => char !=
        '>').rest ≠ [] ∧
      ([⟨.endTag (String.ofList ((cursor.advance 2).rest.takeWhile isNamePart)),
        ⟨cursor.offset,
          ((((cursor.advance 2).skipWhile isNamePart).skipWhile
            fun char => char != '>').advance 1).offset⟩⟩],
        (((cursor.advance 2).skipWhile isNamePart).skipWhile
          fun char => char != '>').advance 1) = (tokens, next) := by
  unfold readEndTag
  dsimp only
  split <;> rename_i rest <;> simp [rest]

theorem readDoctype_eq_ok :
    readDoctype cursor = .ok (tokens, next) ↔
      ((cursor.advance 2).skipWhile fun char => char != '>').rest ≠ [] ∧
      ([⟨.doctype (String.ofList
            (trim ((cursor.advance 2).rest.takeWhile fun char => char != '>'))),
            ⟨cursor.offset,
          (((cursor.advance 2).skipWhile fun char => char != '>').advance
            1).offset⟩⟩],
        ((cursor.advance 2).skipWhile fun char => char != '>').advance 1) =
          (tokens, next) := by
  unfold readDoctype
  dsimp only
  split <;> rename_i rest <;> simp [rest]

theorem readComment_eq_ok :
    readComment cursor = .ok (tokens, next) ↔
      ((cursor.advance 4).skipUntil (beginsWith ['-', '-', '>'])).rest ≠ [] ∧
      ([⟨.comment (String.ofList
            (takeUntil (beginsWith ['-', '-', '>']) (cursor.advance 4).rest)),
            ⟨cursor.offset,
          (((cursor.advance 4).skipUntil (beginsWith ['-', '-', '>'])).advance
            3).offset⟩⟩],
        ((cursor.advance 4).skipUntil (beginsWith ['-', '-', '>'])).advance 3) =
          (tokens, next) := by
  unfold readComment
  dsimp only
  split <;> rename_i rest <;> simp [rest]

theorem beginsMarkup_of_letter {letter : Char} {rest : List Char}
    (named : letter.isAlpha) :
    beginsMarkup ('<' :: letter :: rest) := by
  unfold beginsMarkup
  split
  · rfl
  · rename_i same
    cases same
    cases named
  · rename_i same
    cases same
    exact named
  · rename_i none
    exact absurd rfl (none letter rest)

inductive Begins (chars : List Char) :
    (Cursor → Except Failure (List Token × Cursor)) → Prop
  | comment {rest : List Char}
  (shape : chars = '<' :: '!' :: '-' :: '-' :: rest) :
      Begins chars readComment
  | doctype {rest : List Char} (shape : chars = '<' :: '!' :: rest)
      (plain : ∀ more, rest ≠ '-' :: '-' :: more) : Begins chars readDoctype
  | endTag {letter : Char} {rest : List Char}
      (shape : chars = '<' :: '/' :: letter :: rest)
      (named : letter.isAlpha) : Begins chars readEndTag
  | startTag {letter : Char} {rest : List Char}
      (shape : chars = '<' :: letter :: rest)
      (named : letter.isAlpha) : Begins chars readStartTag
  | text (plain : ¬ beginsMarkup chars) : Begins chars fun cursor =>
      .ok (readText cursor)

theorem exists_begins (chars : List Char) : ∃ reader, Begins chars reader := by
  by_cases markup : beginsMarkup chars
  · unfold beginsMarkup at markup
    split at markup
    · rename_i rest
      by_cases comment : ∃ more, rest = '-' :: '-' :: more
      · obtain ⟨more, rfl⟩ := comment
        exact ⟨_, .comment rfl⟩
      · exact ⟨_, .doctype rfl fun more same => comment ⟨more, same⟩⟩
    · exact ⟨_, .endTag rfl markup⟩
    · exact ⟨_, .startTag rfl markup⟩
    · cases markup
  · exact ⟨_, .text markup⟩

theorem readNext_of_begins
    {reader : Cursor → Except Failure (List Token × Cursor)}
    (begins : Begins cursor.rest reader) :
    readNext cursor = reader cursor := by
  unfold readNext
  cases begins with
  | comment shape =>
      rw [shape]
      rfl
  | doctype shape plain =>
      rw [shape, if_pos (show beginsMarkup ('<' :: '!' :: _) from rfl)]
      split
      · rename_i same
        cases same
        exact absurd rfl (plain _)
      · rfl
      · rename_i same
        cases same
      · rename_i none _
        exact absurd rfl (none _)
  | endTag shape named =>
      rw [shape]
      exact if_pos named
  | startTag shape named =>
      rw [shape, if_pos (beginsMarkup_of_letter named)]
      split
      · rename_i same
        cases same
        cases named
      · rename_i same
        cases same
        cases named
      · rename_i same
        cases same
        cases named
      · rfl
  | text plain => exact if_neg plain

end Stencil.Token
