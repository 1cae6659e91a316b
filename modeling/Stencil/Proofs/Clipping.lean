import Stencil.Proofs.Widening

namespace Stencil

open Text

/-! Reading depends on what it takes and on little behind that. A token that
ends inside a part of a text is read in the part alone as it is read in the
whole, its spans counted from the beginning of the part. -/

namespace Token

variable {cursor next : Cursor} {origin : Nat} {outer : List Char}
  {tokens : List Token} {reader : Cursor → Except Failure (List Token × Cursor)}

def Clips (reader : Cursor → Except Failure (List Token × Cursor))
    (cursor : Cursor) (origin : Nat) (outer : List Char) (tokens : List Token)
    (next : Cursor) : Prop :=
  ∃ clipped last, reader cursor = .ok (clipped, last) ∧
    tokens = clipped.map (fun token => token.shift origin) ∧
    next = last.widen origin outer

theorem readEndTag_clips (long : 2 ≤ cursor.rest.length)
    (read : readEndTag (cursor.widen origin outer) = .ok (tokens, next))
    (within : outer.length ≤ next.rest.length) :
    Clips readEndTag cursor origin outer tokens next := by
  obtain ⟨more, same⟩ := readEndTag_eq_ok.mp read
  obtain ⟨rfl, rfl⟩ := Prod.mk.inj same
  rw [Cursor.advance_widen long] at more within ⊢
  have inside := Cursor.lt_of_advance_one more within
  obtain ⟨name, named⟩ := Cursor.skipWhile_widen
    (Nat.le_trans (Nat.le_of_lt inside) (Cursor.length_skipWhile_le ..))
  rw [named] at inside ⊢
  obtain ⟨_, skipped, onward⟩ := Cursor.skipWhile_widen_of_lt inside
  rw [skipped, Cursor.advance_one_widen onward, name]
  exact ⟨_, _, readEndTag_eq_ok.mpr ⟨onward, rfl⟩, rfl, rfl⟩

theorem readDoctype_clips (long : 2 ≤ cursor.rest.length)
    (read : readDoctype (cursor.widen origin outer) = .ok (tokens, next))
    (within : outer.length ≤ next.rest.length) :
    Clips readDoctype cursor origin outer tokens next := by
  obtain ⟨more, same⟩ := readDoctype_eq_ok.mp read
  obtain ⟨rfl, rfl⟩ := Prod.mk.inj same
  rw [Cursor.advance_widen long] at more within ⊢
  obtain ⟨taken, skipped, onward⟩ :=
    Cursor.skipWhile_widen_of_lt (Cursor.lt_of_advance_one more within)
  rw [skipped, Cursor.advance_one_widen onward, taken]
  exact ⟨_, _, readDoctype_eq_ok.mpr ⟨onward, rfl⟩, rfl, rfl⟩

theorem readComment_clips (long : 4 ≤ cursor.rest.length)
    (read : readComment (cursor.widen origin outer) = .ok (tokens, next))
    (within : outer.length ≤ next.rest.length) :
    Clips readComment cursor origin outer tokens next := by
  obtain ⟨more, same⟩ := readComment_eq_ok.mp read
  obtain ⟨rfl, rfl⟩ := Prod.mk.inj same
  rw [Cursor.advance_widen long] at more within ⊢
  obtain ⟨char, tail, found⟩ := List.exists_cons_of_ne_nil more
  have closes := found_of_dropUntil found
  rw [← found] at closes
  have size := (List.isPrefixOf_iff_prefix.mp closes).length_le
  rw [show ['-', '-', '>'].length = 3 from rfl] at size
  have edge : outer.length + 3 ≤
      (((cursor.advance 4).widen origin outer).skipUntil
      (beginsWith ['-', '-', '>'])).rest.length := by
    rw [Cursor.length_advance] at within
    omega
  obtain ⟨taken, skipped⟩ :=
    Cursor.skipUntil_widen (looks_beginsWith ['-', '-', '>']) (.inr edge)
  rw [skipped, Cursor.length_widen] at edge
  have inside : 3 ≤
      ((cursor.advance 4).skipUntil
        (beginsWith ['-', '-', '>'])).rest.length := by
    omega
  have onward :=
    List.ne_nil_of_length_pos (Nat.lt_of_lt_of_le (by decide) inside)
  rw [skipped, Cursor.advance_widen inside, taken]
  exact ⟨_, _, readComment_eq_ok.mpr ⟨onward, rfl⟩, rfl, rfl⟩

theorem beginsMarkup_three (first second third : Char)
    (rest others : List Char) :
    beginsMarkup (first :: second :: third :: rest) =
      beginsMarkup (first :: second :: third :: others) := by
  by_cases opens : first = '<'
  · subst opens
    by_cases declares : second = '!'
    · subst declares
      rfl
    · by_cases ends : second = '/'
      · subst ends
        rfl
      · simp [beginsMarkup, ends]
  · simp [beginsMarkup, opens]

theorem looks_beginsMarkup : Looks beginsMarkup 3 := by
  constructor
  · intro chars outer begins
    unfold beginsMarkup at begins
    split at begins
    · rfl
    · exact begins
    · exact beginsMarkup_of_letter begins
    · cases begins
  · intro chars outer size begins
    match chars with
    | first :: second :: third :: rest =>
        exact (beginsMarkup_three first second third rest (rest ++ outer)).trans
          begins

theorem readText_clips (some : cursor.rest ≠ [])
    (edge : (readText (cursor.widen origin outer)).2.rest = outer ∨
      outer.length + 3 ≤ (readText (cursor.widen origin outer)).2.rest.length) :
    (readText (cursor.widen origin outer)).1 =
        (readText cursor).1.map (fun token => token.shift origin) ∧
      (readText (cursor.widen origin outer)).2 =
        (readText cursor).2.widen origin outer := by
  unfold readText at edge ⊢
  dsimp only at edge ⊢
  rw [Cursor.advance_one_widen some] at edge ⊢
  obtain ⟨taken, skipped⟩ := Cursor.skipUntil_widen looks_beginsMarkup edge
  have first : (cursor.widen origin outer).rest.take 1 = cursor.rest.take 1 :=
    List.take_append_of_le_length (List.length_pos_iff.mpr some)
  rw [taken, skipped, first]
  exact ⟨rfl, rfl⟩

theorem readRawText_clips {name : List Char}
    (edge : (readRawText name (cursor.widen origin outer)).2.rest = outer ∨
      outer.length + (name.length + 2) ≤
        (readRawText name (cursor.widen origin outer)).2.rest.length) :
    (readRawText name (cursor.widen origin outer)).1 =
        (readRawText name cursor).1.map (fun token => token.shift origin) ∧
      (readRawText name (cursor.widen origin outer)).2 =
        (readRawText name cursor).2.widen origin outer := by
  rw [readRawText_stop] at edge
  obtain ⟨taken, skipped⟩ :=
    Cursor.skipUntil_widen (looks_beginsWithIgnoringCase ('<' :: '/' :: name))
      edge
  rw [readRawText_stop, readRawText_stop, skipped]
  refine ⟨?_, rfl⟩
  unfold readRawText
  dsimp only
  rw [taken, skipped]
  split <;> rfl

theorem length_readStartTag_le {letter : Char} {rest : List Char}
    (shape : cursor.rest = '<' :: letter :: rest) (named : letter.isAlpha)
    (read : readStartTag cursor = .ok (tokens, next)) :
    next.rest.length + 3 ≤ cursor.rest.length := by
  obtain ⟨tag, stop, _, readRest, _, _, behind⟩ := readStartTag_cases read
  have last : next.rest.length ≤ stop.rest.length := by
    rcases behind with ⟨_, _, rfl⟩ | ⟨_, _, rfl⟩
    · exact Nat.le_refl _
    · exact length_readRawText_le ..
  have attributes := length_readAttributes_lt readRest
  have blanks := ((cursor.advance 1).skipWhile isNamePart).length_skipWhile_le
    isTagBlank
  have name : ((cursor.advance 1).skipWhile isNamePart).rest.length ≤
      rest.length := by
    simp only [Cursor.skipWhile, Cursor.advance, shape, List.drop_succ_cons,
      List.drop_zero]
    rw [List.dropWhile_cons_of_pos (isNamePart_of_isAlpha named)]
    exact length_dropWhile_le ..
  rw [shape]
  simp only [List.length_cons]
  omega

theorem length_readNext_markup_le (markup : beginsMarkup cursor.rest)
    (read : readNext cursor = .ok (tokens, next)) :
    next.rest.length + 3 ≤ cursor.rest.length := by
  obtain ⟨reader, begins⟩ := exists_begins cursor.rest
  rw [readNext_of_begins begins] at read
  cases begins with
  | comment shape =>
      obtain ⟨more, same⟩ := readComment_eq_ok.mp read
      have some := List.length_pos_iff.mpr more
      have opening := (cursor.advance 4).length_skipUntil_le
        (beginsWith ['-', '-', '>'])
      rw [← (Prod.mk.inj same).2]
      simp only [Cursor.length_advance] at *
      omega
  | doctype shape plain =>
      obtain ⟨more, same⟩ := readDoctype_eq_ok.mp read
      have some := List.length_pos_iff.mpr more
      have opening := (cursor.advance 2).length_skipWhile_le fun char =>
        char != '>'
      rw [← (Prod.mk.inj same).2]
      simp only [Cursor.length_advance] at *
      omega
  | endTag shape named =>
      obtain ⟨more, same⟩ := readEndTag_eq_ok.mp read
      have some := List.length_pos_iff.mpr more
      have name := (cursor.advance 2).length_skipWhile_le isNamePart
      have opening :=
        ((cursor.advance 2).skipWhile isNamePart).length_skipWhile_le
        fun char => char != '>'
      rw [← (Prod.mk.inj same).2]
      simp only [Cursor.length_advance] at *
      omega
  | startTag shape named => exact length_readStartTag_le shape named read
  | text plain => exact absurd markup plain

/-- Only the outer text is left, or what is read next ends before it. -/
def Continues (outer : List Char) (next : Cursor) : Prop :=
  next.rest = outer ∨
    ∃ tokens behind, readNext next = .ok (tokens, behind) ∧
      outer.length ≤ behind.rest.length

theorem Continues.length_le {size : Nat} (continues : Continues outer next)
    (within : outer.length ≤ next.rest.length)
    (takes : next.rest ≠ [] → ∀ tokens behind,
      readNext next = .ok (tokens, behind) →
      behind.rest.length + size ≤ next.rest.length) :
    next.rest = outer ∨ outer.length + size ≤ next.rest.length := by
  rcases continues with same | ⟨tokens, behind, read, inside⟩
  · exact .inl same
  · by_cases none : next.rest = []
    · rw [none] at within ⊢
      exact .inl (List.eq_nil_of_length_eq_zero (Nat.le_zero.mp within)).symm
    · exact .inr (Nat.le_trans (Nat.add_le_add_right inside size)
        (takes none tokens behind read))

theorem readStartTag_of_cases {tag : Tag} {stop : Cursor} {raw : List Token}
    (name :
      tag.name = String.ofList ((cursor.advance 1).rest.takeWhile isNamePart))
    (read : readAttributes tag.name cursor.offset
        (((cursor.advance 1).skipWhile isNamePart).skipWhile isTagBlank) =
      .ok (tag.attributes, tag.selfClosing, stop))
    (behind : (¬ tag.isRaw ∧ raw = [] ∧ next = stop) ∨
      tag.isRaw ∧
      raw = (readRawText ((cursor.advance 1).rest.takeWhile isNamePart)
        stop).1 ∧
        next = (readRawText ((cursor.advance 1).rest.takeWhile isNamePart)
          stop).2) :
    readStartTag cursor =
      .ok (⟨.startTag tag, ⟨cursor.offset, stop.offset⟩⟩ :: raw, next) := by
  obtain ⟨_, attributes, selfClosing⟩ := tag
  obtain rfl := name
  unfold readStartTag
  simp only [bind, Except.bind]
  rw [read]
  rcases behind with ⟨plain, rfl, rfl⟩ | ⟨isRaw, rfl, rfl⟩
  · exact if_neg plain
  · exact if_pos isRaw

theorem readStartTag_clips {letter : Char} {more : List Char}
    (shape : cursor.rest = '<' :: letter :: more) (named : letter.isAlpha)
    (read : readStartTag (cursor.widen origin outer) = .ok (tokens, next))
    (within : outer.length ≤ next.rest.length)
    (continues : Continues outer next) :
    Clips readStartTag cursor origin outer tokens next := by
  have some : cursor.rest ≠ [] := by simp [shape]
  obtain ⟨tag, stop, name, readRest, raw, rfl, behind⟩ :=
    readStartTag_cases read
  have upTo : outer.length ≤ stop.rest.length := by
    rcases behind with ⟨_, _, rfl⟩ | ⟨_, _, rfl⟩
    · exact within
    · exact Nat.le_trans within (length_readRawText_le ..)
  rw [Cursor.advance_one_widen some] at name readRest behind
  have attributes := Nat.lt_of_le_of_lt upTo (length_readAttributes_lt readRest)
  obtain ⟨taken, skipped⟩ := Cursor.skipWhile_widen
    (Nat.le_trans (Nat.le_of_lt attributes) (Cursor.length_skipWhile_le ..))
  rw [skipped] at readRest attributes
  obtain ⟨_, blanks⟩ := Cursor.skipWhile_widen (Nat.le_of_lt attributes)
  rw [blanks] at readRest
  rw [taken] at name behind
  obtain ⟨clipped, last, clips, same, rfl⟩ :=
    readAttributes_clips readRest upTo cursor.offset
  obtain ⟨_, attributes, selfClosing⟩ := tag
  obtain rfl := name
  obtain rfl : attributes = _ := same
  let inside : Tag :=
    ⟨String.ofList ((cursor.advance 1).rest.takeWhile isNamePart), clipped,
      selfClosing⟩
  rcases behind with ⟨plain, rfl, rfl⟩ | ⟨isRaw, rfl, rfl⟩
  · exact ⟨[⟨.startTag inside, _⟩], last,
      readStartTag_of_cases rfl clips (.inl ⟨plain, rfl, rfl⟩), rfl, rfl⟩
  · have isName : IsTagName ((cursor.advance 1).rest.takeWhile isNamePart) := by
      rw [show (cursor.advance 1).rest =
        letter :: more by simp [Cursor.advance, shape]]
      exact isTagName_of_letter named
    have edge := continues.length_le within fun some _ _ read => by
      obtain ⟨char, rest, found⟩ := List.exists_cons_of_ne_nil some
      rw [readRawText_stop] at found read ⊢
      have closes := found_of_dropUntil found
      rw [← found] at closes
      have taken := (readNext_closing isName closes read).2
      rw [Nat.add_assoc] at taken
      exact Nat.le_of_lt taken
    obtain ⟨texts, stops⟩ := readRawText_clips edge
    refine ⟨⟨.startTag inside, _⟩ :: _, _,
      readStartTag_of_cases rfl clips (.inr ⟨isRaw, rfl, rfl⟩), ?_, stops⟩
    rw [texts]
    rfl

theorem Clips.of_begins (begins : Begins cursor.rest reader)
    (clips : Clips reader cursor origin outer tokens next) :
    Clips readNext cursor origin outer tokens next := by
  obtain ⟨clipped, last, read, same, stop⟩ := clips
  exact ⟨clipped, last, (readNext_of_begins begins).trans read, same, stop⟩

/-- A token that ends before the outer text is read without it as with it. -/
theorem readNext_clips (some : cursor.rest ≠ [])
    (read : readNext (cursor.widen origin outer) = .ok (tokens, next))
    (within : outer.length ≤ next.rest.length)
    (continues : Continues outer next) :
    Clips readNext cursor origin outer tokens next := by
  have three : beginsMarkup (cursor.widen origin outer).rest →
      3 ≤ cursor.rest.length := by
    intro markup
    have taken := length_readNext_markup_le markup read
    rw [Cursor.length_widen] at taken
    omega
  obtain ⟨reader, begins⟩ := exists_begins (cursor.widen origin outer).rest
  rw [readNext_of_begins begins] at read
  cases begins with
  | comment shape =>
      have long : 4 ≤ cursor.rest.length := by
        obtain ⟨more, same⟩ := readComment_eq_ok.mp read
        have some := List.length_pos_iff.mpr more
        have opening :=
          Cursor.length_skipUntil_le ((cursor.widen origin outer).advance 4)
          (beginsWith ['-', '-', '>'])
        rw [← (Prod.mk.inj same).2] at within
        simp only [Cursor.length_advance, Cursor.length_widen] at *
        omega
      obtain ⟨more, clipped, _⟩ :=
        split_append (show cursor.rest ++ outer =
          ['<', '!', '-', '-'] ++ _ from shape) long
      exact .of_begins (.comment clipped) (readComment_clips long read within)
  | doctype shape plain =>
      have long : 2 ≤ cursor.rest.length :=
        Nat.le_of_succ_le (three (by rw [shape]; rfl))
      obtain ⟨more, clipped, behind⟩ :=
        split_append (show cursor.rest ++ outer = ['<', '!'] ++ _ from shape)
          long
      refine .of_begins (.doctype clipped ?_)
        (readDoctype_clips long read within)
      rintro others rfl
      exact plain _ behind
  | @endTag letter _ shape named =>
      have long := three (by rw [shape]; exact named)
      obtain ⟨more, clipped, _⟩ :=
        split_append (show cursor.rest ++ outer =
          ['<', '/', letter] ++ _ from shape) long
      exact .of_begins (.endTag clipped named)
        (readEndTag_clips (Nat.le_of_succ_le long) read within)
  | @startTag letter _ shape named =>
      have long := three (by rw [shape]; exact beginsMarkup_of_letter named)
      obtain ⟨more, clipped, _⟩ := split_append
        (show cursor.rest ++ outer = ['<', letter] ++ _ from shape)
          (Nat.le_of_succ_le long)
      exact .of_begins (.startTag clipped named)
        (readStartTag_clips clipped named read within continues)
  | text plain =>
      obtain ⟨rfl, rfl⟩ := Prod.mk.inj (Except.ok.inj read)
      have edge := continues.length_le within fun some _ _ read => by
        obtain ⟨char, rest, found⟩ := List.exists_cons_of_ne_nil some
        have markup := found_of_dropUntil found
        rw [← found] at markup
        exact length_readNext_markup_le markup read
      obtain ⟨texts, stops⟩ := readText_clips some edge
      have clipped : ¬ beginsMarkup cursor.rest :=
        fun begins => plain (looks_beginsMarkup.grows _ _ begins)
      exact .of_begins (.text clipped) ⟨_, _, rfl, texts, stops⟩

theorem Scans.length_le (scans : Scans cursor tokens next) :
    next.rest.length ≤ cursor.rest.length := by
  induction scans with
  | done => exact Nat.le_refl _
  | read more here _ induction =>
      exact Nat.le_trans induction (Nat.le_of_lt (length_readNext_lt more here))

theorem Scans.continues (scans : Scans cursor tokens next) :
    Continues next.rest cursor := by
  cases scans with
  | done => exact .inl rfl
  | read _ here behind => exact .inr ⟨_, _, here, behind.length_le⟩

theorem Scans.clips (scans : Scans (cursor.widen origin outer) tokens next)
    (ends : next.rest = outer) :
    ∃ clipped last, Scans cursor clipped last ∧ last.rest = [] ∧
      tokens = clipped.map (fun token => token.shift origin) ∧
      next = last.widen origin outer := by
  generalize wide : cursor.widen origin outer = whole at scans
  induction scans generalizing cursor with
  | done whole =>
      subst wide
      exact ⟨[], cursor, .done cursor, List.append_left_eq_self.mp ends, rfl,
        rfl⟩
  | @read whole middle next first rest more here behind induction =>
      subst wide
      have within := behind.length_le
      have continues := behind.continues
      rw [ends] at within continues
      have some := Cursor.rest_ne_nil_of_widen
        (Nat.lt_of_le_of_lt within (length_readNext_lt more here))
      obtain ⟨clipped, last, clips, rfl, rfl⟩ :=
        readNext_clips some here within continues
      obtain ⟨others, final, onward, done, rfl, stop⟩ := induction ends rfl
      exact ⟨clipped ++ others, final, .read some clips onward, done,
        List.map_append.symm, stop⟩

end Token

end Stencil
