import Stencil.Proofs.Contraction
import Stencil.Proofs.Outlines

namespace Stencil

open Text

/-! Raw text is one token, and what stands behind it ends its element: an end
tag that begins like the element's name is never passed over. -/

namespace Text

theorem not_found_of_takeUntil {found : List Char → Bool}
    {chars before after : List Char}
    (taken : takeUntil found chars = before ++ after) (some : after ≠ []) :
    ¬ found (after ++ dropUntil found chars) := by
  induction chars generalizing before with
  | nil => exact absurd (List.append_eq_nil_iff.mp taken.symm).2 some
  | cons char rest induction =>
      rw [takeUntil] at taken
      rw [dropUntil]
      split at taken
      · exact absurd (List.append_eq_nil_iff.mp taken.symm).2 some
      · rename_i here
        rw [if_neg here]
        cases before with
        | nil =>
            rw [← List.nil_append after, ← taken, List.cons_append,
              takeUntil_append_dropUntil]
            exact here
        | cons first more => exact induction (List.cons.inj taken).2

def Unclosed (name text : List Char) : Prop :=
  ∀ before after, text = before ++ after →
    ¬ beginsWithIgnoringCase ('<' :: '/' :: name) after

theorem unclosed_takeUntil (name chars : List Char) :
    Unclosed name (takeUntil (beginsWithIgnoringCase ('<' :: '/' :: name))
      chars) := by
  intro before after taken begins
  have some : after ≠ [] := by
    rintro rfl
    cases begins
  apply not_found_of_takeUntil taken some
  obtain ⟨front, rest, rfl, same⟩ := beginsWithIgnoringCase_iff.mp begins
  exact beginsWithIgnoringCase_iff.mpr ⟨front, _, List.append_assoc .., same⟩

end Text

namespace Token

variable {chars : List Char} {cursor next : Cursor}
  {tokens before after : List Token}

def IsRawText (chars name : List Char) (token : Token) : Prop :=
  token.isText ∧ ∃ content,
    slice? chars token.span.start token.span.stop = some content ∧
    Unclosed name content

/-- What stands behind the start tag of an element with raw text: that text, if
there is any, then nothing or an end tag whose name begins like that of the
element. -/
structure RawBehind (chars name : List Char) (content rest : List Token) :
    Prop where
  content : content = [] ∨ ∃ token,
    content = [token] ∧ token.IsRawText chars name
  closing : ∀ token ∈ rest.head?, ∃ written, token.kind = .endTag written ∧
    beginsWithIgnoringCase name written.toList

theorem readRawText_content (stands : cursor.Stands chars) (name : List Char) :
    (readRawText name cursor).1 = [] ∨
      ∃ token, (readRawText name cursor).1 = [token] ∧
        token.IsRawText chars name := by
  have reads :=
    cursor.reads_skipUntil (beginsWithIgnoringCase ('<' :: '/' :: name))
  have unclosed := unclosed_takeUntil name cursor.rest
  unfold readRawText
  dsimp only
  split
  · exact .inl rfl
  · exact .inr ⟨_, rfl, rfl, _, stands.slice? reads, unclosed⟩

theorem readStartTag_texts {first : Token}
    (read : readStartTag cursor = .ok (first :: after, next)) :
    ∀ token ∈ after, token.isText := by
  obtain ⟨_, stop, _, _, content, same, behind⟩ := readStartTag_cases read
  obtain ⟨_, rfl⟩ := List.cons.inj same
  rcases behind with ⟨_, rfl, _⟩ | ⟨_, rfl, _⟩
  · simp
  · rcases readRawText_tokens ((cursor.advance 1).rest.takeWhile isNamePart)
      stop with
      none | ⟨content, only⟩
    · simp [none]
    · simp [only, isText]

theorem readStartTag_rawBehind {letter : Char} {chars more : List Char}
    {tag : Tag} {span : Span} {rest : List Token} {last : Cursor}
    (stands : cursor.Stands chars)
    (begins : cursor.rest = '<' :: letter :: more) (named : letter.isAlpha)
    (read : readStartTag cursor = .ok (⟨.startTag tag, span⟩ :: after, next))
    (raw : tag.isRaw) (behind : Scans next rest last) :
    RawBehind chars tag.name.toList after rest := by
  have opening :=
    ((cursor.reads_advance 1).trans (Cursor.reads_skipWhile _ isNamePart)).trans
    (Cursor.reads_skipWhile _ isTagBlank)
  obtain ⟨tag, stop, name, readRest, content, same, isRaw⟩ :=
    readStartTag_cases read
  obtain ⟨⟨_, reads⟩, _⟩ :=
    readAttributes_spells (stands.reads opening) readRest
  obtain ⟨same, rfl⟩ := List.cons.inj same
  cases same
  obtain ⟨_, rfl, rfl⟩ := isRaw.resolve_left fun plain => plain.1 raw
  have nameChars : (cursor.advance 1).rest.takeWhile isNamePart =
      tag.name.toList := by
    rw [name, String.toList_ofList]
  have isName : IsTagName tag.name.toList := by
    rw [← nameChars, show (cursor.advance 1).rest = letter :: more by
        simp [Cursor.advance, begins]]
    exact isTagName_of_letter named
  rw [nameChars] at behind ⊢
  refine ⟨readRawText_content (stands.reads (opening.trans reads)) _,
    fun token head => ?_⟩
  rw [readRawText_stop] at behind
  cases behind with
  | done => cases head
  | @read _ _ _ first others some here _ =>
      obtain ⟨char, tail, onward⟩ := List.exists_cons_of_ne_nil some
      have closes := found_of_dropUntil onward
      rw [← onward] at closes
      obtain ⟨⟨written, place, rfl, begins⟩, _⟩ :=
        readNext_closing isName closes here
      obtain rfl := Option.some.inj head
      exact ⟨written, rfl, begins⟩

/-- Raw text follows the start tag of its element. -/
theorem Scans.rawBehind {tag : Tag} {span : Span}
    (scans : Scans cursor tokens next) (stands : cursor.Stands chars)
    (shape : tokens = before ++ ⟨.startTag tag, span⟩ :: after)
    (raw : tag.isRaw) :
    ∃ content rest, after = content ++ rest ∧
      RawBehind chars tag.name.toList content rest := by
  induction scans generalizing before with
  | done => simp at shape
  | @read cursor middle next first rest more here behind induction =>
      obtain ⟨_, reads⟩ := (readNext_tiles stands more here).exists_reads
      rcases List.append_eq_append_iff.mp shape with ⟨between, rfl, later⟩ |
        ⟨between, ahead, later⟩
      · exact induction (stands.reads reads) later
      · cases between with
        | nil =>
            have first : rest = [] ++ ⟨.startTag tag, span⟩ :: after :=
              later.symm
            exact induction (stands.reads reads) first
        | cons token content =>
            obtain ⟨rfl, rfl⟩ := List.cons.inj later
            subst ahead
            have member : ⟨.startTag tag, span⟩ ∈ before ++
                ⟨.startTag tag, span⟩ :: content := by
              simp
            rcases readNext_cases here with ⟨letter, more, opens, named, read⟩ |
              ⟨token, only, _, other⟩ | ⟨_, only, _⟩
            · cases before with
              | nil =>
                  have behind :=
                    readStartTag_rawBehind stands opens named read raw behind
                  exact ⟨content, rest, rfl, behind⟩
              | cons first others =>
                  have text := readStartTag_texts read ⟨.startTag tag, span⟩
                    (by simp)
                  cases text
            · rw [only, List.mem_singleton] at member
              subst member
              exact absurd rfl (other tag)
            · rw [only] at member
              cases List.mem_singleton.mp member

theorem Tiling.mem_head_of_start {token other : Token}
    (tiling : Tiling chars cursor tokens next)
    (shape : tokens = before ++ token :: after) (member : other ∈ tokens)
    (begins : other.span.start = token.span.stop) : other ∈ after.head? := by
  have ordered := tiling.pairwise
  have nonempty := fun token member => (tiling.within token member).2.1
  subst shape
  have here := nonempty token (by simp)
  have there := nonempty other member
  obtain ⟨_, ordered, earlier⟩ := List.pairwise_append.mp ordered
  obtain ⟨later, ordered⟩ := List.pairwise_cons.mp ordered
  rcases List.mem_append.mp member with ahead | member
  · have := earlier other ahead token (List.mem_cons_self ..)
    omega
  · rcases List.mem_cons.mp member with rfl | behind
    · omega
    · cases after with
      | nil => cases behind
      | cons first rest =>
          rcases List.mem_cons.mp behind with rfl | behind
          · rfl
          · have := nonempty first (by simp)
            have := later first (List.mem_cons_self ..)
            have := (List.pairwise_cons.mp ordered).1 other behind
            omega

def Halts (token : Token) : Prop :=
  token.outline? = none ∧ ∀ name,
    token.kind = .endTag name → ¬ isVoidElement name

end Token

/-- One of the tokens stands where the node begins, and the node is made of
it. -/
def Node.ReadFrom (tokens : List Token) (node : Node) : Prop :=
  ∃ token ∈ tokens, token.span.start = node.span.start ∧
    token.outline? = some node.outline

section Content

variable {source : Source} {tokens : List Token} {start stop : Nat}
  {nodes : List Node} {text : List Char}

theorem Tiles.eq_nil_of_halts
    (tiles : Tiles source tokens start nodes stop text)
    (read : ∀ node ∈ nodes, node.ReadFrom tokens)
    (halts : ∀ token ∈ tokens, token.span.start = start → token.Halts) :
    nodes = [] ∧ stop = start := by
  cases tiles with
  | nil => exact ⟨rfl, rfl⟩
  | node _ _ =>
      obtain ⟨token, member, begins, made⟩ := read _ (List.mem_cons_self ..)
      rw [(halts token member begins).1] at made
      cases made
  | passed member isVoid _ _ =>
      exact absurd isVoid ((halts _ member rfl).2 _ rfl)

theorem Tiles.eq_text_of_halts {content : Token}
    (tiles : Tiles source tokens start nodes stop text)
    (read : ∀ node ∈ nodes, node.ReadFrom tokens) (isText : content.isText)
    (only : ∀ token ∈ tokens,
      token.kind ≠ .eof → token.span.start = start → token = content)
    (halts : ∀ token ∈ tokens,
      token.span.start = content.span.stop → token.Halts) :
    (nodes = [] ∧ stop = start) ∨
    (nodes = [.text content.span] ∧ stop = content.span.stop) := by
  cases tiles with
  | nil => exact .inl ⟨rfl, rfl⟩
  | @node node rest _ _ _ _ behind =>
      obtain ⟨token, member, begins, made⟩ := read _ (List.mem_cons_self ..)
      have notEof : token.kind ≠ .eof := by
        intro isEof
        simp [Token.outline?, isEof] at made
      obtain rfl := only token member notEof begins
      have same : node = .text token.span := by
        obtain ⟨kind, span⟩ := token
        cases kind <;> cases isText
        cases node <;> cases made
        rfl
      subst same
      obtain ⟨rfl, rfl⟩ := behind.eq_nil_of_halts
        (fun node inside => read node (List.mem_cons_of_mem _ inside)) halts
      exact .inr ⟨rfl, rfl⟩
  | passed member isVoid _ _ =>
      have same := only _ member (by simp) rfl
      rw [← same] at isText
      cases isText

end Content

theorem Ends.le_stop {source : Source} {body : List Token}
    {cursor last : Cursor} {eof : Span} {name : String} {inner stop : Nat}
    {closing : List Char} {token : Token}
    (ends : Ends source (body ++ [⟨.eof, eof⟩]) name inner stop closing)
    (tiling : Token.Tiling source.chars cursor body last)
    (member : token ∈ body) (later : inner ≤ token.span.start) :
    stop ≤ token.span.stop := by
  have nonempty := (tiling.within token member).2.1
  cases ends with
  | leftOpen => exact Nat.le_trans later (Nat.le_of_lt nonempty)
  | @endTag written span _ read _ _ =>
      have read : ⟨.endTag written, span⟩ ∈ body := by simpa using read
      rcases tiling.pairwise.eq_or_rel read member with rfl | before | behind
      · exact Nat.le_refl _
      · exact Nat.le_trans before (Nat.le_of_lt nonempty)
      · exact absurd (Nat.lt_of_lt_of_le nonempty behind) (Nat.not_lt.mpr later)

section Opaque

variable {source : Source} {body before content rest : List Token}
  {last : Cursor} {eof : Span} {element : Element}
  (tiling : Token.Tiling source.chars ⟨0, source.chars⟩ body last)
  (shape : body = before ++ ⟨.startTag element.tag, element.tagSpan⟩ ::
      (content ++ rest))
  (behind : Token.RawBehind source.chars element.name.toList content rest)
  (raw : isRawTextElement element.name)

include tiling behind raw in
theorem halts_behind_raw {ahead : Token}
    (shape : body = before ++ ahead :: rest) :
    ∀ token ∈ body ++ [⟨.eof, eof⟩],
      token.span.start = ahead.span.stop → token.Halts := by
  intro token member begins
  rcases List.mem_append.mp member with member | final
  · obtain ⟨written, isEnd, likeName⟩ :=
      behind.closing token (tiling.mem_head_of_start shape member begins)
    refine ⟨by simp [Token.outline?, isEnd], fun name same => ?_⟩
    rw [isEnd] at same
    cases same
    exact not_void_of_begins raw likeName
  · obtain rfl := List.mem_singleton.mp final
    exact ⟨rfl, by simp⟩

include tiling shape behind raw in
theorem Tiles.raw_content {inner : Nat} {text : List Char}
    (tiles : Tiles source (body ++ [⟨.eof, eof⟩]) element.tagSpan.stop
      element.children inner text)
    (read : ∀ child ∈ element.children,
      child.ReadFrom (body ++ [⟨.eof, eof⟩])) :
    (element.children = [] ∧ inner = element.tagSpan.stop) ∨
      ∃ token, content = [token] ∧ element.children = [.text token.span] ∧
        inner = token.span.stop := by
  rcases behind.content with rfl | ⟨token, rfl, isText, _⟩
  · exact .inl (tiles.eq_nil_of_halts read
      (halts_behind_raw tiling behind raw shape))
  · have only : ∀ other ∈ body ++ [⟨.eof, eof⟩], other.kind ≠ .eof →
        other.span.start = element.tagSpan.stop → other = token := by
      intro other member notEof begins
      rcases List.mem_append.mp member with member | final
      · exact (Option.some.inj
          (tiling.mem_head_of_start shape member begins)).symm
      · obtain rfl := List.mem_singleton.mp final
        exact absurd rfl notEof
    have spelled : body =
        (before ++ [⟨.startTag element.tag, element.tagSpan⟩]) ++ token ::
          rest := by
      simpa using shape
    rcases tiles.eq_text_of_halts read isText only
      (halts_behind_raw tiling behind raw spelled) with none | ⟨children, stop⟩
    · exact .inl none
    · exact .inr ⟨token, rfl, children, stop⟩

include tiling shape behind in
theorem Element.Placed.raw_apart {inner : Nat} {text : List Char} {tag : Tag}
    {span : Span} (placed : element.Placed source (body ++ [⟨.eof, eof⟩]))
    (ends : Ends source (body ++ [⟨.eof, eof⟩]) element.name inner
      element.span.stop text)
    (inside : inner = element.tagSpan.stop ∨
      ∃ token, content = [token] ∧ inner = token.span.stop)
    (member : ⟨.startTag tag, span⟩ ∈ body) :
    span.start < element.tagSpan.stop ∨ element.span.stop ≤ span.start := by
  have nonempty := (tiling.within _ member).2.1
  have ordered := tiling.pairwise
  have split := member
  rw [shape] at split ordered
  obtain ⟨_, ordered, earlier⟩ := List.pairwise_append.mp ordered
  obtain ⟨later, ordered⟩ := List.pairwise_cons.mp ordered
  rcases List.mem_append.mp split with ahead | split
  · have before := earlier _ ahead _ (List.mem_cons_self ..)
    exact .inl (Nat.lt_of_lt_of_le nonempty
      (Nat.le_trans before (Nat.le_of_lt placed.tagged)))
  · rcases List.mem_cons.mp split with same | split
    · cases same
      exact .inl placed.tagged
    · rcases List.mem_append.mp split with isContent | split
      · rcases behind.content with rfl | ⟨token, rfl, isText, _⟩
        · cases isContent
        · rw [← List.mem_singleton.mp isContent] at isText
          cases isText
      · cases rest with
        | nil => cases split
        | cons closing more =>
            have closes : inner ≤ closing.span.start := by
              rcases inside with rfl | ⟨token, rfl, rfl⟩
              · exact later closing (by simp)
              · exact (List.pairwise_append.mp ordered).2.2 token
                  (by simp) closing (by simp)
            have reach := ends.le_stop tiling (by simp [shape]) closes
            rcases List.mem_cons.mp split with same | split
            · obtain ⟨written, isEnd, _⟩ := behind.closing closing rfl
              rw [← same] at isEnd
              cases isEnd
            · have ordered := (List.pairwise_append.mp ordered).2.1
              exact .inr (Nat.le_trans reach
                ((List.pairwise_cons.mp ordered).1 _ split))

include tiling raw in
theorem Element.Placed.raw_cases
    (placed : element.Placed source (body ++ [⟨.eof, eof⟩]))
    (scans : Token.Scans ⟨0, source.chars⟩ body last)
    (read : ∀ child ∈ element.children,
      child.ReadFrom (body ++ [⟨.eof, eof⟩])) :
    (element.children = [] ∨ ∃ span text, element.children = [.text span] ∧
      source.slice? span = some text ∧ Unclosed element.name.toList text) ∧
    ∀ tag span, ⟨.startTag tag, span⟩ ∈ body →
      span.start < element.tagSpan.stop ∨ element.span.stop ≤ span.start := by
  by_cases single : element.tag.isSingle
  · obtain ⟨same, none⟩ := placed.single single
    refine ⟨.inl none, fun tag span _ => ?_⟩
    rw [same]
    exact Nat.lt_or_ge ..
  · have isRaw : element.tag.isRaw := by
      rw [Tag.isSingle, Bool.or_eq_true, not_or] at single
      simp [Tag.isRaw, single.1, show isRawTextElement element.tag.name
        from raw]
    have begun : ⟨.startTag element.tag, element.tagSpan⟩ ∈ body := by
      simpa using placed.read
    obtain ⟨before, after, shape⟩ := List.append_of_mem begun
    obtain ⟨content, rest, rfl, behind⟩ :=
      scans.rawBehind (Cursor.stands_start source.chars) shape isRaw
    obtain ⟨inner, _, closing, tiles, ends, _⟩ := placed.paired single
    have inside := tiles.raw_content tiling shape behind raw read
    constructor
    · rcases inside with ⟨none, _⟩ | ⟨token, only, children, _⟩
      · exact .inl none
      · obtain none | ⟨other, same, _, text, spelled, unclosed⟩ :=
          behind.content
        · cases only.symm.trans none
        · cases only.symm.trans same
          exact .inr ⟨_, text, children, spelled, unclosed⟩
    · have reach : inner = element.tagSpan.stop ∨
          ∃ token, content = [token] ∧ inner = token.span.stop := by
        rcases inside with ⟨_, stop⟩ | ⟨token, only, _, stop⟩
        · exact .inl stop
        · exact .inr ⟨token, only, stop⟩
      exact fun tag span member =>
        placed.raw_apart tiling shape behind ends reach member

end Opaque

namespace Document

theorem readFrom_of_listing {source : Source} {tokens : List Token}
    {document : Document}
    (listed : document.listing.map (fun entry => entry.2.outline) =
      tokens.filterMap Token.outline?) {entry : Nat × Node}
    (member : entry ∈ document.listing)
    (placed : entry.2.Placed source tokens) : entry.2.ReadFrom tokens := by
  have made : entry.2.outline ∈ tokens.filterMap Token.outline? := by
    rw [← listed]
    exact List.mem_map.mpr ⟨entry, member, rfl⟩
  obtain ⟨⟨kind, span⟩, read, made⟩ := List.mem_filterMap.mp made
  refine ⟨⟨kind, span⟩, read, ?_, made⟩
  obtain ⟨depth, node⟩ := entry
  cases node with
  | element tag tagSpan whole children =>
      cases kind <;> cases made
      exact (placed.element _ rfl).start
  | text | comment | doctype =>
      cases kind <;> cases made
      rfl

/-- An element that has the name of one with raw text holds nothing, or one text
in which no end tag begins like one of its name. No element begins inside it, so
none is taken there for a component, and neither does any construct that is
built of the document. -/
theorem parse_rawText {source : Source} {document : Document}
    (parsed : parse source = .ok document) :
    ∀ entry ∈ document.listing, ∀ element, entry.2.element? = some element →
      isRawTextElement element.name →
      (element.children = [] ∨ ∃ span text, element.children = [.text span] ∧
        source.slice? span = some text ∧ Unclosed element.name.toList text) ∧
      (∀ other ∈ document.descendants.map Prod.snd,
        other.span.start < element.tagSpan.stop ∨
        element.span.stop ≤ other.span.start) ∧
      ∀ root ∈ document.descendants.map Prod.snd, ∀ known tree events,
        Construct.build source root known = .ok (tree, events) →
          ∀ construct ∈ tree.walk,
            construct.span.start < element.tagSpan.stop ∨
              element.span.stop ≤ construct.span.start := by
  intro entry member element found raw
  obtain ⟨tokens, scanned, listed⟩ := parse_listing parsed
  obtain ⟨_, same, _, all⟩ := parse_places parsed
  obtain rfl := Except.ok.inj (scanned.symm.trans same)
  have placed : ∀ entry ∈ document.listing, entry.2.Placed source tokens := by
    intro entry member
    obtain ⟨node, top, below⟩ := Node.mem_forestListing.mp member
    exact (all node top).of_listing 0 entry below
  have read : ∀ child ∈ element.children, child.ReadFrom tokens := by
    intro child inside
    have inside : child ∈ entry.2.children := by
      rw [Element.eq_node_of_element? found]
      exact inside
    have member := Node.mem_forestListing_of_child document.nodes member inside
    exact readFrom_of_listing listed member (placed _ member)
  obtain ⟨body, last, scans, done, rfl⟩ := Source.tokens_eq_ok.mp scanned
  have tiling := scans.tiling (Cursor.stands_start source.chars)
  obtain ⟨content, apart⟩ :=
    ((placed entry member).element element found).raw_cases tiling raw scans
      read
  have elements : ∀ other ∈ document.descendants.map Prod.snd,
      other.span.start < element.tagSpan.stop ∨
      element.span.stop ≤ other.span.start := by
    intro other walked
    obtain ⟨entry, visited, rfl⟩ := List.mem_map.mp walked
    have placed := (Element.all_of_walk all visited).here.element entry.2 rfl
    rw [← placed.start]
    exact apart _ _ (by simpa using placed.read)
  refine ⟨content, elements, ?_⟩
  intro root inDocument known tree events built construct walked
  obtain ⟨origin, below, made⟩ :=
    (Construct.build_ok built).walk construct walked
  rw [made.span_eq]
  apply elements
  rcases List.mem_cons.mp below with rfl | below
  · exact inDocument
  · exact Element.mem_walk_of_descendant inDocument below

/-- Raw text with a tag of a construct in it, up to the end tag of an element
around it whose name begins like that of the element with the raw text. -/
theorem parse_rawText_scripts :
    let source :=
      Source.ofText
        "<scripts _component=\"A\"><SCRIPT>a<b _if=\"c\"></b></scripts>"
    ∃ document entry element,
      parse source = .ok document ∧ entry ∈ document.listing ∧
      entry.2.element? = some element ∧ element.name = "SCRIPT" ∧
      element.span = ⟨24, 48⟩ ∧ element.children.map Node.span = [⟨32, 48⟩] ∧
      (element.children = [] ∨ ∃ span text, element.children = [.text span] ∧
        source.slice? span = some text ∧
        Unclosed element.name.toList text) := by
  intro source
  have shape : (parse source).map (fun document =>
      (document.listing.filterMap fun entry => entry.2.element?).map
          fun element =>
            (element.name, element.span, element.children.map Node.span)) =
      .ok [("scripts", ⟨0, 58⟩, [⟨24, 48⟩]),
        ("SCRIPT", ⟨24, 48⟩, [⟨32, 48⟩])] := by
    decide +kernel
  obtain ⟨document, parsed, elements⟩ := Except.map_eq_ok.mp shape
  obtain ⟨outer, rest, found, _, elements⟩ := List.map_eq_cons_iff.mp elements
  obtain ⟨element, _, rfl, spans, _⟩ := List.map_eq_cons_iff.mp elements
  obtain ⟨name, spans⟩ := Prod.mk.inj spans
  obtain ⟨span, inside⟩ := Prod.mk.inj spans
  obtain ⟨entry, member, found⟩ := List.mem_filterMap.mp
    (show element ∈ document.listing.filterMap fun entry =>
      entry.2.element? by simp [found])
  have raw : isRawTextElement element.name := by
    rw [name]
    decide +kernel
  exact ⟨document, entry, element, parsed, member, found, name, span, inside,
    (parse_rawText parsed entry member element found raw).1⟩

end Document

end Stencil
