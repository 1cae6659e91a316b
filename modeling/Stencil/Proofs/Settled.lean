import Mathlib.Data.List.TakeWhile
import Stencil.Proofs.Contexts

namespace Stencil

open Text
open Marker (Context)

/-! Tokens in which brackets and quotation marks mean the same to the reading of
tokens and to the contexts of markers. In a text of such tokens every token
begins and ends as text. -/

namespace Attribute

/-- No quotation mark stands in the name of the attribute or in a value without
quotes. -/
def Quiet (attr : Attribute) : Prop :=
  Context.Unmarked attr.name.toList ∧
    ∀ value ∈ attr.value,
      value.quote = .unquoted → Context.Unmarked value.text.toList

def Within (start stop : Nat) (attr : Attribute) : Prop :=
  ∀ value ∈ attr.value, start ≤ value.span.start ∧ value.span.stop ≤ stop

def Framed (origin : Cursor) (attr : Attribute) : Prop :=
  ∀ value ∈ attr.value,
    ∃ around, Context.location around = .tag ∧
      ContextOver origin value.span around

instance decidableQuiet (attr : Attribute) : Decidable attr.Quiet :=
  inferInstanceAs (Decidable (Context.Unmarked attr.name.toList ∧
    ∀ value ∈ attr.value,
      value.quote = .unquoted → Context.Unmarked value.text.toList))

end Attribute

namespace Token

section Attributes

variable {origin cursor stop : Cursor}

theorem readQuoted_frames {failure : Failure} {quote : Quote} {mark : Char}
    {rest : List Char} {value : Attribute.Value}
    (leads : origin.LeadsTo cursor .tag) (opens : cursor.rest = mark :: rest)
    (marks : Context.isMark mark)
    (read : readQuoted failure quote mark cursor = .ok (value, stop)) :
    origin.LeadsTo stop .tag ∧
    ContextOver origin value.span (.quoted mark) := by
  have opened := leads.advance opens
  rw [Context.tag_step_mark marks] at opened
  have inside := (cursor.advance 1).reads_skipWhile fun char => char != mark
  unfold readQuoted at read
  dsimp only at read
  split at read
  · cases read
  · rename_i char tail behind
    obtain ⟨rfl, rfl⟩ := Prod.mk.inj (Except.ok.inj read)
    have closes : char = mark := by
      have stopped :=
        Cursor.head_skipWhile (show char ∈ List.head? _ by rw [behind]; rfl)
      simpa using stopped
    subst closes
    have lasts : (Context.quoted char).Lasts
        ((cursor.advance 1).rest.takeWhile fun other => other != char)
          (char :: tail) :=
      Context.quoted_lasts _ fun member => by
        simpa using List.mem_takeWhile_imp member
    rw [← behind] at lasts
    have closed := (opened.lasts inside lasts).advance behind
    rw [Context.quoted_step_mark] at closed
    exact ⟨closed, _, _, _, opened, inside, lasts, rfl⟩

theorem readUnquoted_frames {failure : Failure} {value : Attribute.Value}
    (leads : origin.LeadsTo cursor .tag)
    (quiet : Context.Unmarked value.text.toList)
    (read : readUnquoted failure cursor = .ok (value, stop)) :
    origin.LeadsTo stop .tag ∧ ContextOver origin value.span .tag := by
  have inside := cursor.reads_skipWhile isUnquotedPart
  unfold readUnquoted at read
  dsimp only at read
  split at read
  · cases read
  · obtain ⟨rfl, rfl⟩ := Prod.mk.inj (Except.ok.inj read)
    rw [String.toList_ofList] at quiet
    have lasts : Context.tag.Lasts _ (cursor.skipWhile isUnquotedPart).rest :=
      Context.tag_lasts _ quiet fun member => by
        cases List.mem_takeWhile_imp member
    exact ⟨leads.lasts inside lasts, _, _, _, leads, inside, lasts, rfl⟩

theorem readValue_frames {name tag : String} {start tagStart : Nat}
    {value : Attribute.Value} (leads : origin.LeadsTo cursor .tag)
    (quiet : value.quote = .unquoted → Context.Unmarked value.text.toList)
    (read : readValue name tag start tagStart cursor = .ok (value, stop)) :
    origin.LeadsTo stop .tag ∧
      ∃ around, Context.location around = .tag ∧
        ContextOver origin value.span around := by
  unfold readValue at read
  split at read
  · rename_i rest opens
    obtain ⟨closed, inside⟩ := readQuoted_frames leads opens rfl read
    exact ⟨closed, _, rfl, inside⟩
  · rename_i rest opens
    obtain ⟨closed, inside⟩ := readQuoted_frames leads opens rfl read
    exact ⟨closed, _, rfl, inside⟩
  · have unquoted : value.quote = .unquoted := by
      unfold readUnquoted at read
      dsimp only at read
      split at read
      · cases read
      · cases read
        rfl
    obtain ⟨passed, inside⟩ := readUnquoted_frames leads (quiet unquoted) read
    exact ⟨passed, _, rfl, inside⟩

theorem skipWhile_leads {test : Char → Bool}
    (quiet : test '"' = false ∧ test '\'' = false ∧ test '>' = false)
    (leads : origin.LeadsTo cursor .tag) :
    origin.LeadsTo (cursor.skipWhile test) .tag := by
  have absent :
      ∀ char, test char = false → char ∉ cursor.rest.takeWhile test := by
    intro char fails member
    rw [List.mem_takeWhile_imp member] at fails
    cases fails
  refine leads.lasts (cursor.reads_skipWhile test)
    (Context.tag_lasts _ (fun char member => ?_) (absent _ quiet.2.2))
  rw [Context.isMark, Bool.or_eq_false_iff, beq_eq_false_iff_ne,
    beq_eq_false_iff_ne]
  exact ⟨fun same => absent _ quiet.1 (same ▸ member),
    fun same => absent _ quiet.2.1 (same ▸ member)⟩

theorem skipBlanks_leads (leads : origin.LeadsTo cursor .tag) :
    origin.LeadsTo (cursor.skipWhile isTagBlank) .tag :=
  skipWhile_leads (by decide) leads

theorem begins_attributeName (chars : List Char) :
    attributeName chars <+: chars := by
  unfold attributeName
  split
  · exact List.nil_prefix
  · exact List.nil_prefix
  · rw [List.prefix_cons_inj]
    exact List.takeWhile_prefix _

theorem close_notMem_attributeName {first : Char} (within : first ≠ '>')
    (rest : List Char) :
    '>' ∉ attributeName (first :: rest) := by
  intro member
  unfold attributeName at member
  split at member
  · cases member
  · cases member
  · rename_i same
    cases same
    rcases List.mem_cons.mp member with here | later
    · exact within here.symm
    · cases List.mem_takeWhile_imp later

theorem readName_leads {first : Char} {rest : List Char}
    (leads : origin.LeadsTo cursor .tag) (begins : cursor.rest = first :: rest)
    (within : first ≠ '>')
    (quiet : Context.Unmarked (attributeName cursor.rest)) :
    origin.LeadsTo (cursor.advance (attributeName cursor.rest).length)
      .tag := by
  have reads := cursor.reads_advance (attributeName cursor.rest).length
  rw [← List.prefix_iff_eq_take.mp (begins_attributeName cursor.rest)] at reads
  refine leads.lasts reads (Context.tag_lasts _ quiet ?_)
  rw [begins]
  exact close_notMem_attributeName within rest

theorem readAttribute_frames {tag : String} {tagStart : Nat} {attr : Attribute}
    {first : Char} {rest : List Char} (leads : origin.LeadsTo cursor .tag)
    (begins : cursor.rest = first :: rest) (within : first ≠ '>')
    (quiet : attr.Quiet)
    (read : readAttribute tag tagStart cursor = .ok (attr, stop)) :
    origin.LeadsTo stop .tag ∧ attr.Framed origin := by
  unfold readAttribute at read
  dsimp only at read
  split at read
  · rename_i tail equals
    obtain ⟨⟨value, last⟩, valueRead, same⟩ := Except.map_eq_ok.mp read
    obtain ⟨rfl, rfl⟩ := Prod.mk.inj same
    have named := skipBlanks_leads
      (readName_leads leads begins within (by simpa using quiet.1))
    have assigned := skipBlanks_leads (named.advance equals)
    obtain ⟨passed, framed⟩ :=
      readValue_frames assigned (quiet.2 value rfl) valueRead
    refine ⟨passed, ?_⟩
    intro other same
    cases same
    exact framed
  · obtain ⟨rfl, rfl⟩ := Prod.mk.inj (Except.ok.inj read)
    refine ⟨skipBlanks_leads
      (readName_leads leads begins within (by simpa using quiet.1)), by
      simp [Attribute.Framed]⟩

theorem readAttributes_frames {tag : String} {tagStart : Nat}
    {attributes : List Attribute} {selfClosing : Bool}
    (leads : origin.LeadsTo cursor .tag)
    (quiet : ∀ attr ∈ attributes, attr.Quiet)
    (read : readAttributes tag tagStart cursor =
      .ok (attributes, selfClosing, stop)) :
    origin.LeadsTo stop .text ∧ ∀ attr ∈ attributes, attr.Framed origin := by
  fun_induction readAttributes tag tagStart cursor
    generalizing attributes selfClosing stop with
  | case1 => cases read
  | case2 cursor tail rest =>
      simp only [Except.ok.injEq, Prod.mk.injEq] at read
      obtain ⟨rfl, _, rfl⟩ := read
      exact ⟨leads.advance rest, by simp⟩
  | case3 cursor tail rest =>
      simp only [Except.ok.injEq, Prod.mk.injEq] at read
      obtain ⟨rfl, _, rfl⟩ := read
      have closing := cursor.reads_advance 2
      rw [rest, List.take_succ_cons, List.take_succ_cons, List.take_zero]
        at closing
      exact ⟨leads.reads closing, by simp⟩
  | case4 cursor tail _ rest induction =>
      exact induction (skipBlanks_leads (leads.advance rest)) quiet read
  | case5 => cases read
  | case6 cursor first tail within _ _ rest attr next readFirst induction =>
      obtain ⟨⟨more, closing, last⟩, readRest, same⟩ := Except.map_eq_ok.mp read
      simp only [Prod.mk.injEq] at same
      obtain ⟨rfl, _, rfl⟩ := same
      obtain ⟨passed, framed⟩ := readAttribute_frames leads rest within
        (quiet attr (List.mem_cons_self ..)) readFirst
      obtain ⟨ended, others⟩ := induction (skipBlanks_leads passed)
        (fun other member => quiet other (List.mem_cons_of_mem _ member))
          readRest
      refine ⟨ended, ?_⟩
      rintro other (_ | ⟨_, member⟩)
      · exact framed
      · exact others other member

theorem readValue_within {name tag : String} {start tagStart : Nat}
    {value : Attribute.Value}
    (read : readValue name tag start tagStart cursor = .ok (value, stop)) :
    cursor.offset ≤ value.span.start ∧ value.span.stop ≤ stop.offset := by
  have quoted : ∀ {failure : Failure} {quote : Quote} {mark : Char},
      readQuoted failure quote mark cursor = .ok (value, stop) →
        cursor.offset ≤ value.span.start ∧ value.span.stop ≤ stop.offset := by
    intro failure quote mark read
    unfold readQuoted at read
    dsimp only at read
    split at read
    · cases read
    · obtain ⟨rfl, rfl⟩ := Prod.mk.inj (Except.ok.inj read)
      exact ⟨(cursor.reads_advance 1).offset_le,
        (Cursor.reads_advance _ 1).offset_le⟩
  unfold readValue at read
  split at read
  · exact quoted read
  · exact quoted read
  · unfold readUnquoted at read
    dsimp only at read
    split at read
    · cases read
    · obtain ⟨rfl, rfl⟩ := Prod.mk.inj (Except.ok.inj read)
      exact ⟨Nat.le_refl _, Nat.le_refl _⟩

theorem readAttribute_within {tag : String} {tagStart : Nat} {attr : Attribute}
    (read : readAttribute tag tagStart cursor = .ok (attr, stop)) :
    attr.Within cursor.offset stop.offset := by
  have name := (cursor.reads_advance (attributeName cursor.rest).length).trans
    (Cursor.reads_skipWhile _ isTagBlank)
  unfold readAttribute at read
  dsimp only at read
  split at read
  · have equals := name.trans
      ((Cursor.reads_advance _ 1).trans (Cursor.reads_skipWhile _ isTagBlank))
    obtain ⟨⟨value, last⟩, valueRead, same⟩ := Except.map_eq_ok.mp read
    obtain ⟨rfl, rfl⟩ := Prod.mk.inj same
    intro other same
    cases same
    obtain ⟨after, before⟩ := readValue_within valueRead
    exact ⟨Nat.le_trans equals.offset_le after, before⟩
  · obtain ⟨rfl, rfl⟩ := Prod.mk.inj (Except.ok.inj read)
    simp [Attribute.Within]

theorem readAttributes_within {chars : List Char} {tag : String}
    {tagStart : Nat} {attributes : List Attribute} {selfClosing : Bool}
    (stands : cursor.Stands chars)
    (read : readAttributes tag tagStart cursor =
      .ok (attributes, selfClosing, stop)) :
    ∀ attr ∈ attributes, attr.Within cursor.offset stop.offset := by
  fun_induction readAttributes tag tagStart cursor
    generalizing attributes selfClosing stop with
  | case1 => cases read
  | case2 | case3 =>
      cases read
      simp
  | case4 cursor tail _ rest induction =>
      have slash := (cursor.reads_advance 1).trans
        (Cursor.reads_skipWhile _ isTagBlank)
      intro attr member value valued
      obtain ⟨after, before⟩ :=
        induction (stands.reads slash) read attr member value valued
      exact ⟨Nat.le_trans slash.offset_le after, before⟩
  | case5 => cases read
  | case6 cursor first tail _ _ _ rest attr next readFirst induction =>
      obtain ⟨⟨more, closing, last⟩, readRest, same⟩ := Except.map_eq_ok.mp read
      simp only [Prod.mk.injEq] at same
      obtain ⟨rfl, _, rfl⟩ := same
      obtain ⟨⟨_, firstReads⟩, _⟩ := readAttribute_spells stands readFirst
      have blanks := firstReads.trans (next.reads_skipWhile isTagBlank)
      obtain ⟨⟨_, reads⟩, _⟩ :=
        readAttributes_spells (stands.reads blanks) readRest
      have onward := ((next.reads_skipWhile isTagBlank).trans reads).offset_le
      rintro other (_ | ⟨_, member⟩) value valued
      · obtain ⟨after, before⟩ := readAttribute_within readFirst value valued
        exact ⟨after, Nat.le_trans before onward⟩
      · obtain ⟨after, before⟩ :=
          induction (stands.reads blanks) readRest other member value valued
        exact ⟨Nat.le_trans blanks.offset_le after, before⟩

end Attributes

def attributes (token : Token) : List Attribute :=
  match token.kind with
  | .startTag tag => tag.attributes
  | _ => []

def isText (token : Token) : Bool :=
  match token.kind with
  | .text _ => true
  | _ => false

/-- A start tag has quotation marks around values only, no tag seems to begin
inside a text, and what seems to begin inside any other token also ends
there. -/
def Settled (chars : List Char) (token : Token) : Prop :=
  match token.kind with
  | .startTag tag => ∀ attr ∈ tag.attributes, attr.Quiet
  | .text text => Context.text.Lasts text.toList []
  | .endTag _ | .comment _ | .doctype _ | .eof =>
      ∀ taken ∈ slice? chars token.span.start token.span.stop,
        Context.text.across taken [] = .text

instance decidableSettled (chars : List Char) :
    (token : Token) → Decidable (token.Settled chars)
  | ⟨.startTag tag, _⟩ =>
      inferInstanceAs (Decidable (∀ attr ∈ tag.attributes, attr.Quiet))
  | ⟨.text text, _⟩ =>
      inferInstanceAs (Decidable (Context.text.Lasts text.toList []))
  | ⟨.endTag _, span⟩ | ⟨.comment _, span⟩ | ⟨.doctype _, span⟩
  | ⟨.eof, span⟩ =>
      inferInstanceAs (Decidable (∀ taken ∈ slice? chars span.start span.stop,
        Context.text.across taken [] = .text))

/-- Read from the origin on, the token ends as text. All of a text is text, and
the values of a start tag stand inside the tag. -/
structure Framed (origin : Cursor) (token : Token) : Prop where
  stop : ContextAt origin token.span.stop .text
  text : token.isText → ContextOver origin token.span .text
  values : ∀ attr ∈ token.attributes, attr.Framed origin

/-- Every reading that comes to the token in text frames it, if the token is
settled. Its values lie inside it. -/
structure Carries (chars : List Char) (token : Token) : Prop where
  frames : ∀ origin : Cursor,
    origin.Stands chars → ContextAt origin token.span.start .text →
    token.Settled chars → token.Framed origin
  within : ∀ attr ∈ token.attributes,
    attr.Within token.span.start token.span.stop

section Tokens

variable {chars : List Char} {cursor next : Cursor} {tokens : List Token}

theorem bracket_of_beginsMarkup {first : Char} {rest : List Char}
    (begins : beginsMarkup (first :: rest)) : first = '<' := by
  unfold beginsMarkup at begins
  split at begins <;> simp_all

theorem toLower_of_not_isUpper {char : Char} (other : ¬ char.isUpper) :
    char.toLower = char :=
  dif_neg fun upper => other (decide_eq_true upper)

theorem isLower_toLower {char : Char} (upper : char.isUpper) :
    char.toLower.isLower := by
  have capital : char.val ≥ 'A'.val ∧ char.val ≤ 'Z'.val :=
    of_decide_eq_true upper
  have first : 65 ≤ char.val.toNat := capital.1
  have last : char.val.toNat ≤ 90 := capital.2
  have code : char.toLower.val = char.val + 32 :=
    congrArg Char.val (dif_pos capital)
  have lowered : char.toLower.val.toNat = char.val.toNat + 32 := by
    rw [code, UInt32.toNat_add, show (32 : UInt32).toNat = 32 from rfl]
    omega
  have low : 97 ≤ char.toLower.val.toNat := by omega
  have high : char.toLower.val.toNat ≤ 122 := by omega
  exact Bool.and_eq_true_iff.mpr ⟨decide_eq_true low, decide_eq_true high⟩

theorem eq_of_toLower {char other : Char} (lower : char.toLower = other)
    (plain : other.isLower = false) : char = other := by
  by_cases upper : char.isUpper
  · rw [← lower, isLower_toLower upper] at plain
    cases plain
  · exact (toLower_of_not_isUpper upper).symm.trans lower

theorem text_carries {taken : List Char} (placed : cursor.Stands chars)
    (reads : cursor.Reads taken next)
    (edge : ∀ char ∈ next.rest.head?, char = '<') :
    Carries chars ⟨.text (String.ofList taken),
      ⟨cursor.offset, next.offset⟩⟩ := by
  refine ⟨?_, by simp [attributes]⟩
  intro origin stands here settled
  have leads := here.leadsTo stands placed
  have lasts : Context.text.Lasts (String.ofList taken).toList [] := settled
  rw [String.toList_ofList] at lasts
  have whole := Context.text_lasts lasts edge
  refine ⟨(leads.lasts reads whole).contextAt, fun _ => ?_, ?_⟩
  · exact ⟨cursor, next, taken, leads, reads, whole, rfl⟩
  · simp [attributes]

theorem closed_carries {front : List Char} {token : Token}
    (placed : cursor.Stands chars) (reads : cursor.Reads (front ++ ['>']) next)
    (span : token.span = ⟨cursor.offset, next.offset⟩)
    (settles : token.Settled chars →
      ∀ taken ∈ slice? chars token.span.start token.span.stop,
      Context.text.across taken [] = .text) (no_text : ¬ token.isText)
    (no_attributes : token.attributes = []) : token.Carries chars := by
  refine ⟨?_, by simp [no_attributes]⟩
  intro origin stands here settled
  have across := settles settled
  rw [span] at here across
  have passed := (here.leadsTo stands placed).reads reads
  rw [Context.across_closed, across _ (placed.slice? reads)] at passed
  refine ⟨?_, fun isText => absurd isText no_text, by simp [no_attributes]⟩
  rw [span]
  exact passed.contextAt

theorem readText_carries (placed : cursor.Stands chars) :
    ∀ token ∈ (readText cursor).1, token.Carries chars := by
  have reads := (cursor.reads_advance 1).trans
    (Cursor.reads_skipUntil _ beginsMarkup)
  intro token member
  obtain rfl := List.mem_singleton.mp member
  refine text_carries placed reads ?_
  intro char head
  obtain ⟨rest, behind⟩ := List.head?_eq_some_iff.mp head
  exact bracket_of_beginsMarkup (found_of_dropUntil behind)

theorem readRawText_carries {name : List Char} (placed : cursor.Stands chars) :
    ∀ token ∈ (readRawText name cursor).1, token.Carries chars := by
  have reads :=
    cursor.reads_skipUntil (beginsWithIgnoringCase ('<' :: '/' :: name))
  unfold readRawText
  dsimp only
  split
  · simp
  · intro token member
    obtain rfl := List.mem_singleton.mp member
    refine text_carries placed reads ?_
    intro char head
    obtain ⟨rest, behind⟩ := List.head?_eq_some_iff.mp head
    have found := found_of_dropUntil behind
    simp only [beginsWithIgnoringCase, List.length_cons, List.take_succ_cons,
      List.map_cons, List.cons_beq_cons, Bool.and_eq_true, beq_iff_eq] at found
    exact eq_of_toLower found.1 rfl

theorem readComment_carries (placed : cursor.Stands chars)
    (read : readComment cursor = .ok (tokens, next)) :
    ∀ token ∈ tokens, token.Carries chars := by
  have opening := (cursor.reads_advance 4).trans
    (Cursor.reads_skipUntil _ (beginsWith ['-', '-', '>']))
  unfold readComment at read
  dsimp only at read
  split at read
  · cases read
  · rename_i behind
    obtain ⟨rfl, rfl⟩ := Prod.mk.inj (Except.ok.inj read)
    have closes := found_of_dropUntil behind
    rw [← behind] at closes
    have reads := opening.trans (Cursor.reads_of_beginsWith closes)
    rw [show ['-', '-', '>'] = ['-', '-'] ++ ['>'] from rfl,
      ← List.append_assoc] at reads
    intro token member
    obtain rfl := List.mem_singleton.mp member
    exact closed_carries placed reads rfl (fun settled => settled)
      (by simp [isText]) rfl

theorem reads_close {char : Char} {rest : List Char}
    (behind : (cursor.skipWhile fun char => char != '>').rest = char :: rest) :
    cursor.Reads ((cursor.rest.takeWhile fun char => char != '>') ++ ['>'])
      ((cursor.skipWhile fun char => char != '>').advance 1) := by
  have closes : char = '>' := by
    have stopped :=
      Cursor.head_skipWhile (show char ∈ List.head? _ by rw [behind]; rfl)
    simpa using stopped
  rw [closes] at behind
  exact (cursor.reads_skipWhile fun char => char != '>').trans
    (Cursor.reads_head behind)

theorem readDoctype_carries (placed : cursor.Stands chars)
    (read : readDoctype cursor = .ok (tokens, next)) :
    ∀ token ∈ tokens, token.Carries chars := by
  unfold readDoctype at read
  dsimp only at read
  split at read
  · cases read
  · rename_i behind
    obtain ⟨rfl, rfl⟩ := Prod.mk.inj (Except.ok.inj read)
    have reads := (cursor.reads_advance 2).trans (reads_close behind)
    rw [← List.append_assoc] at reads
    intro token member
    obtain rfl := List.mem_singleton.mp member
    exact closed_carries placed reads rfl (fun settled => settled)
      (by simp [isText]) rfl

theorem readEndTag_carries (placed : cursor.Stands chars)
    (read : readEndTag cursor = .ok (tokens, next)) :
    ∀ token ∈ tokens, token.Carries chars := by
  have opening := (cursor.reads_advance 2).trans
    (Cursor.reads_skipWhile _ isNamePart)
  unfold readEndTag at read
  dsimp only at read
  split at read
  · cases read
  · rename_i behind
    obtain ⟨rfl, rfl⟩ := Prod.mk.inj (Except.ok.inj read)
    have reads := opening.trans (reads_close behind)
    rw [← List.append_assoc] at reads
    intro token member
    obtain rfl := List.mem_singleton.mp member
    exact closed_carries placed reads rfl (fun settled => settled)
      (by simp [isText]) rfl

theorem readStartTag_carries {letter : Char} {rest : List Char}
    (placed : cursor.Stands chars)
    (begins : cursor.rest = '<' :: letter :: rest) (named : letter.isAlpha)
    (read : readStartTag cursor = .ok (tokens, next)) :
    ∀ token ∈ tokens, token.Carries chars := by
  have opening :=
    ((cursor.reads_advance 1).trans (Cursor.reads_skipWhile _ isNamePart)).trans
    (Cursor.reads_skipWhile _ isTagBlank)
  obtain ⟨tag, stop, _, readRest, raw, rfl, behind⟩ := readStartTag_cases read
  obtain ⟨⟨taken, reads⟩, _⟩ :=
    readAttributes_spells (placed.reads opening) readRest
  rintro token (_ | ⟨_, member⟩)
  · refine ⟨?_, fun attr member value valued => ?_⟩
    · intro origin stands here settled
      have opened := (here.leadsTo stands placed).advance begins
      rw [show Context.text.step '<' (letter :: rest) = .tag by
        simp [Context.step, Context.beginsTag, named]] at opened
      have tagged : origin.LeadsTo
          (((cursor.advance 1).skipWhile isNamePart).skipWhile isTagBlank)
            .tag :=
        skipBlanks_leads (skipWhile_leads (by decide) opened)
      obtain ⟨closed, values⟩ := readAttributes_frames tagged settled readRest
      exact ⟨closed.contextAt, by simp [isText], values⟩
    · obtain ⟨after, before⟩ :=
        readAttributes_within (placed.reads opening) readRest attr member value
          valued
      exact ⟨Nat.le_trans opening.offset_le after, before⟩
  · rcases behind with ⟨_, rfl, rfl⟩ | ⟨_, rfl, rfl⟩
    · cases member
    · exact readRawText_carries ((placed.reads opening).reads reads) token
        member

theorem begins_of_startTag {text : List Char} (begins : beginsMarkup text)
    (not_declaration : ∀ tail, text ≠ '<' :: '!' :: tail)
    (not_end : ∀ tail, text ≠ '<' :: '/' :: tail) :
    ∃ letter rest, text = '<' :: letter :: rest ∧ letter.isAlpha := by
  unfold beginsMarkup at begins
  split at begins
  · exact absurd rfl (not_declaration _)
  · exact absurd rfl (not_end _)
  · exact ⟨_, _, rfl, begins⟩
  · cases begins

theorem readNext_carries (placed : cursor.Stands chars)
    (read : readNext cursor = .ok (tokens, next)) :
    ∀ token ∈ tokens, token.Carries chars := by
  unfold readNext at read
  split at read
  · rename_i begins
    split at read
    · exact readComment_carries placed read
    · exact readDoctype_carries placed read
    · exact readEndTag_carries placed read
    · rename_i not_declaration not_end
      obtain ⟨letter, rest, opens, named⟩ :=
        begins_of_startTag begins not_declaration not_end
      exact readStartTag_carries placed opens named read
  · cases read
    exact readText_carries placed

theorem scanFrom_carries (placed : cursor.Stands chars)
    (scanned : scanFrom cursor = .ok tokens) :
    ∀ token ∈ tokens, token.Carries chars := by
  fun_induction scanFrom cursor generalizing tokens with
  | case1 cursor rest =>
      cases scanned
      intro token member
      obtain rfl := List.mem_singleton.mp member
      refine ⟨fun origin _ here _ => ?_, by simp [attributes]⟩
      exact ⟨here, by simp [isText], by simp [attributes]⟩
  | case2 => cases scanned
  | case3 cursor char tail rest first next readFirst induction =>
      obtain ⟨others, scanRest, rfl⟩ := Except.map_eq_ok.mp scanned
      have more : cursor.rest ≠ [] := by
        rw [rest]
        exact List.cons_ne_nil _ _
      obtain ⟨taken, reads⟩ :=
        (readNext_tiles placed more readFirst).exists_reads
      intro token member
      rcases List.mem_append.mp member with before | behind
      · exact readNext_carries placed readFirst token before
      · exact induction (placed.reads reads) scanRest token behind

end Tokens

end Token

theorem Source.tokens_carry {source : Source} {tokens : List Token}
    (scanned : source.tokens = .ok tokens) :
    ∀ token ∈ tokens, token.Carries source.chars := by
  unfold Source.tokens Token.scan at scanned
  rw [Except.mapError_eq_ok] at scanned
  exact Token.scanFrom_carries (Cursor.stands_start source.chars) scanned

end Stencil
