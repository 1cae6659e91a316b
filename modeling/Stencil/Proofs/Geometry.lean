import Stencil.Proofs.Outcome
import Stencil.Proofs.Tiling
import Stencil.Proofs.Trees

namespace Stencil

open Text

/-! Where the nodes of a document stand in its text. An element reaches from its
start tag over all that is inside it to its own end tag, or to where it is left
open. -/

section Placement

variable (source : Source) (tokens : List Token)

/-- Nodes, and end tags of void elements, that stand one behind the other
between two offsets. They spell the text given last. -/
inductive Tiles : Nat → List Node → Nat → List Char → Prop
  | nil (offset : Nat) : Tiles offset [] offset []
  | node {node : Node} {rest : List Node} {stop : Nat} {text more : List Char}
      (here : source.slice? node.span = some text)
      (behind : Tiles node.span.stop rest stop more) :
      Tiles node.span.start (node :: rest) stop (text ++ more)
  | passed {name : String} {span : Span} {nodes : List Node} {stop : Nat}
      {text more : List Char}
      (read : ⟨.endTag name, span⟩ ∈ tokens) (isVoid : isVoidElement name)
      (here : source.slice? span = some text)
      (behind : Tiles span.stop nodes stop more) :
      Tiles span.start nodes stop (text ++ more)

/-- How an element of the given name ends behind its last child: with its end
tag, or with nothing. -/
inductive Ends (name : String) : Nat → Nat → List Char → Prop
  | leftOpen (offset : Nat) : Ends name offset offset []
  | endTag {written : String} {span : Span} {text : List Char}
      (read : ⟨.endTag written, span⟩ ∈ tokens)
        (same : sameIgnoringCase name written)
      (here : source.slice? span = some text) :
      Ends name span.start span.stop text

def Tag.isSingle (tag : Tag) : Bool :=
  tag.selfClosing || isVoidElement tag.name

/-- An element begins with its start tag. It is all of a single element; behind
that of another one stand the children, then the end tag or nothing. -/
structure Element.Placed (element : Element) : Prop where
  read : ⟨.startTag element.tag, element.tagSpan⟩ ∈ tokens
  start : element.tagSpan.start = element.span.start
  tagged : element.tagSpan.start < element.tagSpan.stop
  stop : element.tagSpan.stop ≤ element.span.stop
  single : element.tag.isSingle →
    element.span = element.tagSpan ∧ element.children = []
  paired : ¬ element.tag.isSingle → ∃ inner content closing,
    Tiles source tokens element.tagSpan.stop element.children inner content ∧
    Ends source tokens element.name inner element.span.stop closing ∧
    source.slice? ⟨element.tagSpan.stop, element.span.stop⟩ =
      some (content ++ closing)

structure Node.Placed (node : Node) : Prop where
  nonempty : node.span.start < node.span.stop
  spelled : ∃ text, source.slice? node.span = some text
  element : ∀ element,
    node.element? = some element → element.Placed source tokens

end Placement

theorem Ends.le {source : Source} {tokens : List Token} {name : String}
    {start stop : Nat} {text : List Char}
    (ends : Ends source tokens name start stop text) : start ≤ stop := by
  cases ends with
  | leftOpen => exact Nat.le_refl _
  | endTag _ _ here => exact slice?_le here

section Tiles

variable {source : Source} {tokens : List Token} {start middle stop : Nat}
  {nodes : List Node} {text : List Char}

theorem Tiles.append_node {node : Node} {more : List Char}
    (tiles : Tiles source tokens start nodes node.span.start text)
    (here : source.slice? node.span = some more) :
    Tiles source tokens start (nodes ++ [node]) node.span.stop
      (text ++ more) := by
  generalize last : node.span.start = offset at tiles
  induction tiles with
  | nil offset =>
      subst last
      have behind : Tiles source tokens node.span.stop [] node.span.stop [] :=
        .nil _
      have tiles := Tiles.node here behind
      rwa [List.append_nil] at tiles
  | node before _ induction =>
      rw [List.append_assoc]
      exact .node before (induction last)
  | passed read isVoid before _ induction =>
      rw [List.append_assoc]
      exact .passed read isVoid before (induction last)

theorem Tiles.append_passed {name : String} {span : Span} {more : List Char}
    (tiles : Tiles source tokens start nodes span.start text)
    (read : ⟨.endTag name, span⟩ ∈ tokens) (isVoid : isVoidElement name)
    (here : source.slice? span = some more) :
    Tiles source tokens start nodes span.stop (text ++ more) := by
  generalize last : span.start = offset at tiles
  induction tiles with
  | nil offset =>
      subst last
      have tiles := Tiles.passed read isVoid here (.nil span.stop)
      rwa [List.append_nil] at tiles
  | node before _ induction =>
      rw [List.append_assoc]
      exact .node before (induction last)
  | passed read isVoid before _ induction =>
      rw [List.append_assoc]
      exact .passed read isVoid before (induction last)

theorem Tiles.slice? (tiles : Tiles source tokens start nodes stop text)
    (cut : IsCut source.chars start) :
    source.slice? ⟨start, stop⟩ = some text := by
  induction tiles with
  | nil offset => exact cut.slice?_self
  | node here _ induction =>
      exact slice?_append here (induction (isCut_of_slice? here).2)
  | passed _ _ here _ induction =>
      exact slice?_append here (induction (isCut_of_slice? here).2)

theorem Tiles.start_le (tiles : Tiles source tokens start nodes stop text) :
    start ≤ stop := by
  induction tiles with
  | nil offset => exact Nat.le_refl _
  | node here _ induction => exact Nat.le_trans (slice?_le here) induction
  | passed _ _ here _ induction => exact Nat.le_trans (slice?_le here) induction

theorem Tiles.covers (tiles : Tiles source tokens start nodes stop text) :
    ∀ node ∈ nodes, start ≤ node.span.start ∧ node.span.stop ≤ stop := by
  induction tiles with
  | nil offset => simp
  | node here behind induction =>
      rintro other (_ | ⟨_, member⟩)
      · exact ⟨Nat.le_refl _, behind.start_le⟩
      · obtain ⟨after, within⟩ := induction other member
        exact ⟨Nat.le_trans (slice?_le here) after, within⟩
  | passed _ _ here _ induction =>
      intro other member
      obtain ⟨after, within⟩ := induction other member
      exact ⟨Nat.le_trans (slice?_le here) after, within⟩

theorem Tiles.pairwise (tiles : Tiles source tokens start nodes stop text) :
    nodes.Pairwise fun left right => left.span.stop ≤ right.span.start := by
  induction tiles with
  | nil offset => exact .nil
  | node here behind induction =>
      exact .cons (fun other member => (behind.covers other member).1) induction
  | passed _ _ _ _ induction => exact induction

end Tiles

theorem Span.covers_iff {outer inner : Span} :
    outer.covers inner ↔
    outer.start ≤ inner.start ∧ inner.stop ≤ outer.stop := by
  simp [Span.covers]

theorem Span.covers_trans {outer middle inner : Span}
    (first : outer.covers middle) (second : middle.covers inner) :
    outer.covers inner := by
  rw [Span.covers_iff] at *
  omega

/-- One of two spans lies inside the other, or they have no byte in common. -/
def Span.NestedOrDisjoint (first second : Span) : Prop :=
  first.covers second ∨ second.covers first ∨ first.stop ≤ second.start ∨
    second.stop ≤ first.start

theorem Span.NestedOrDisjoint.symm {first second : Span}
    (related : first.NestedOrDisjoint second) :
    second.NestedOrDisjoint first := by
  rcases related with outer | inner | before | behind
  · exact .inr (.inl outer)
  · exact .inl inner
  · exact .inr (.inr (.inr before))
  · exact .inr (.inr (.inl behind))

theorem Span.NestedOrDisjoint.of_covers {first second left right : Span}
    (apart : left.stop ≤ right.start) (inLeft : left.covers first)
    (inRight : right.covers second) :
    first.NestedOrDisjoint second := by
  rw [Span.covers_iff] at inLeft inRight
  exact .inr (.inr (.inl (by omega)))

section Nesting

variable {source : Source} {tokens : List Token}

theorem Element.Placed.children_within {element : Element}
    (placed : element.Placed source tokens) :
    ∀ child ∈ element.children,
      element.tagSpan.stop ≤ child.span.start ∧
      child.span.stop ≤ element.span.stop := by
  intro child member
  by_cases single : element.tag.isSingle
  · rw [(placed.single single).2] at member
    cases member
  · obtain ⟨inner, content, closing, tiles, ends, _⟩ := placed.paired single
    obtain ⟨after, before⟩ := tiles.covers child member
    exact ⟨after, Nat.le_trans before ends.le⟩

theorem Element.Placed.children_pairwise {element : Element}
    (placed : element.Placed source tokens) :
    element.children.Pairwise fun left right =>
      left.span.stop ≤ right.span.start := by
  by_cases single : element.tag.isSingle
  · rw [(placed.single single).2]
    exact .nil
  · obtain ⟨inner, content, closing, tiles, _⟩ := placed.paired single
    exact tiles.pairwise

theorem Node.Placed.children_within {node : Node}
    (placed : node.Placed source tokens) :
    ∀ child ∈ node.children, node.span.covers child.span := by
  intro child member
  cases node with
  | element tag tagSpan span children =>
      have here := placed.element _ rfl
      obtain ⟨after, before⟩ := here.children_within child member
      have start : tagSpan.start = span.start := here.start
      have tagged : tagSpan.start < tagSpan.stop := here.tagged
      have tag_le : span.start ≤ tagSpan.stop := by omega
      exact Span.covers_iff.mpr ⟨Nat.le_trans tag_le after, before⟩
  | text | comment | doctype => cases member

theorem Node.Placed.children_pairwise {node : Node}
    (placed : node.Placed source tokens) :
    node.children.Pairwise fun left right =>
      left.span.stop ≤ right.span.start := by
  cases node with
  | element tag tagSpan span children =>
      exact (placed.element _ rfl).children_pairwise
  | text | comment | doctype => exact .nil

theorem Node.All.covers {node : Node}
    (all : node.All (Node.Placed source tokens)) :
    ∀ depth, ∀ entry ∈ node.listing depth, node.span.covers entry.2.span := by
  induction all with
  | intro here _ induction =>
      intro depth entry member
      rw [Node.listing_eq] at member
      rcases List.mem_cons.mp member with rfl | below
      · simp [Span.covers]
      · obtain ⟨child, inside, member⟩ := Node.mem_forestListing.mp below
        exact Span.covers_trans (here.children_within child inside)
          (induction child inside (depth + 1) entry member)

theorem Node.nestedOrDisjoint_of_forest {nodes : List Node} {depth : Nat}
    (apart : nodes.Pairwise fun left right => left.span.stop ≤ right.span.start)
    (all : ∀ node ∈ nodes, node.All (Node.Placed source tokens))
    (same : ∀ node ∈ nodes, ∀ first ∈ node.listing depth,
      ∀ second ∈ node.listing depth,
      first.2.span.NestedOrDisjoint second.2.span) :
    ∀ first ∈ Node.forestListing depth nodes,
      ∀ second ∈ Node.forestListing depth nodes,
      first.2.span.NestedOrDisjoint second.2.span := by
  intro first firstMember second secondMember
  obtain ⟨left, leftMember, firstMember⟩ :=
    Node.mem_forestListing.mp firstMember
  obtain ⟨right, rightMember, secondMember⟩ :=
    Node.mem_forestListing.mp secondMember
  have inLeft := (all left leftMember).covers depth first firstMember
  have inRight := (all right rightMember).covers depth second secondMember
  rcases apart.eq_or_rel leftMember rightMember with rfl | before | behind
  · exact same left leftMember first firstMember second secondMember
  · exact .of_covers before inLeft inRight
  · exact (Span.NestedOrDisjoint.of_covers behind inRight inLeft).symm

theorem Node.All.nestedOrDisjoint {node : Node}
    (all : node.All (Node.Placed source tokens)) :
    ∀ depth, ∀ first ∈ node.listing depth, ∀ second ∈ node.listing depth,
      first.2.span.NestedOrDisjoint second.2.span := by
  induction all with
  | @intro node here inside induction =>
      intro depth first firstMember second secondMember
      have whole : node.All (Node.Placed source tokens) := .intro here inside
      have firstInside := whole.covers depth first firstMember
      have secondInside := whole.covers depth second secondMember
      rw [Node.listing_eq] at firstMember secondMember
      rcases List.mem_cons.mp firstMember with rfl | firstBelow
      · exact .inl secondInside
      · rcases List.mem_cons.mp secondMember with rfl | secondBelow
        · exact .inr (.inl firstInside)
        · exact Node.nestedOrDisjoint_of_forest here.children_pairwise inside
            (fun child member => induction child member (depth + 1)) first
              firstBelow second
            secondBelow

end Nesting

namespace Document

section Drafts

variable (source : Source) (tokens : List Token)

structure Opened.Begun (opened : Opened) : Prop where
  read : ⟨.startTag opened.tag, opened.tagSpan⟩ ∈ tokens
  paired : ¬ opened.tag.isSingle
  nonempty : opened.tagSpan.start < opened.tagSpan.stop
  spelled : ∃ text, source.slice? opened.tagSpan = some text

/-- The draft accounts for the text up to the given offset: what is inside the
innermost open element reaches from its start tag to there, and what is around
it reaches to its start tag. -/
def Reaches (nodes : List Node) : List Opened → Nat → Prop
  | [], offset =>
      (∃ text, Tiles source tokens 0 nodes offset text) ∧
        ∀ node ∈ nodes, node.All (Node.Placed source tokens)
  | top :: below, offset =>
      top.Begun source tokens ∧
        (∃ text, Tiles source tokens top.tagSpan.stop top.children offset text)
          ∧
        (∀ child ∈ top.children, child.All (Node.Placed source tokens)) ∧
        Reaches nodes below top.tagSpan.start

end Drafts

namespace Draft

variable {source : Source} {tokens : List Token} {draft next : Draft}
  {offset stop : Nat}

theorem add_reaches {node : Node}
    (reaches : Reaches source tokens draft.nodes draft.opened node.span.start)
    (placed : node.All (Node.Placed source tokens)) :
    Reaches source tokens (draft.add node).nodes (draft.add node).opened
      node.span.stop := by
  obtain ⟨text, spelled⟩ := placed.here.spelled
  have extended : ∀ {nodes : List Node},
      (∀ other ∈ nodes, other.All (Node.Placed source tokens)) →
      ∀ other ∈ nodes ++ [node], other.All (Node.Placed source tokens) := by
    intro nodes all other member
    rcases List.mem_append.mp member with before | last
    · exact all other before
    · rw [List.mem_singleton.mp last]
      exact placed
  unfold add
  cases shape : draft.opened with
  | nil =>
      rw [shape] at reaches
      obtain ⟨⟨before, tiles⟩, all⟩ := reaches
      exact ⟨⟨_, tiles.append_node spelled⟩, extended all⟩
  | cons top below =>
      rw [shape] at reaches
      obtain ⟨begun, ⟨before, tiles⟩, all, around⟩ := reaches
      exact ⟨⟨begun.read, begun.paired, begun.nonempty, begun.spelled⟩,
        ⟨_, tiles.append_node spelled⟩, extended all, around⟩

theorem close_reaches {top : Opened} {below : List Opened} {closing : List Char}
    (shape : draft.opened = top :: below)
    (reaches : Reaches source tokens draft.nodes draft.opened offset)
    (ends : Ends source tokens top.tag.name offset stop closing) :
    Reaches source tokens (draft.close stop).nodes (draft.close stop).opened
      stop := by
  rw [shape] at reaches
  obtain ⟨begun, ⟨content, tiles⟩, all, around⟩ := reaches
  obtain ⟨tagText, tagSlice⟩ := begun.spelled
  have inside := tiles.slice? (isCut_of_slice? tagSlice).2
  have outside : source.slice? ⟨offset, stop⟩ = some closing := by
    cases ends with
    | leftOpen =>
        obtain ⟨before, after, whole, size⟩ := (isCut_of_slice? inside).2
        exact slice?_eq_some.mpr ⟨before, after, whole, size, rfl⟩
    | endTag _ _ here => exact here
  have behindTag : source.slice? ⟨top.tagSpan.stop, stop⟩ =
      some (content ++ closing) :=
    slice?_append inside outside
  have ordered : top.tagSpan.stop ≤ stop := slice?_le behindTag
  have last : max stop top.tagSpan.stop = stop := Nat.max_eq_left ordered
  have placed : (Node.element top.tag top.tagSpan ⟨top.tagSpan.start, stop⟩
        top.children).All
      (Node.Placed source tokens) := by
    refine .intro ⟨?_, ⟨_, slice?_append tagSlice behindTag⟩, ?_⟩ all
    · exact Nat.lt_of_lt_of_le begun.nonempty ordered
    · intro element same
      cases same
      exact ⟨begun.read, rfl, begun.nonempty, ordered, fun single =>
        absurd single begun.paired,
        fun _ => ⟨offset, content, closing, tiles, ends, behindTag⟩⟩
  let outer : Draft := ⟨below, draft.nodes⟩
  have reached : Reaches source tokens outer.nodes outer.opened
    top.tagSpan.start := around
  rw [close, shape]
  simp only [last]
  exact add_reaches reached placed

theorem close_opened : (draft.close stop).opened.map Opened.tag =
    (draft.opened.map Opened.tag).drop 1 := by
  unfold close
  cases shape : draft.opened with
  | nil => simp [shape]
  | cons top below => cases below <;> simp [add]

theorem closeMany_opened (draft : Draft) (stop count : Nat) :
    (draft.closeMany stop count).opened.map Opened.tag =
      (draft.opened.map Opened.tag).drop count := by
  induction count generalizing draft with
  | zero => rfl
  | succ count induction =>
      rw [closeMany, induction, close_opened, List.drop_drop, Nat.add_comm]

theorem closeMany_reaches
    (reaches : Reaches source tokens draft.nodes draft.opened offset)
    (count : Nat) :
    Reaches source tokens (draft.closeMany offset count).nodes
      (draft.closeMany offset count).opened offset := by
  induction count generalizing draft with
  | zero => exact reaches
  | succ count induction =>
      refine induction ?_
      cases shape : draft.opened with
      | nil =>
          rw [close, shape]
          exact reaches
      | cons top below => exact close_reaches shape reaches (.leftOpen offset)

/-- One token carries the draft from the token's start to its end. -/
theorem step_reaches {token : Token} {text : List Char} (read : token ∈ tokens)
    (nonempty : token.span.start < token.span.stop)
    (here : source.slice? token.span = some text) (proper : token.kind ≠ .eof)
    (reaches : Reaches source tokens draft.nodes draft.opened token.span.start)
    (stepped : step source draft token = .ok next) :
    Reaches source tokens next.nodes next.opened token.span.stop := by
  obtain ⟨kind, span⟩ := token
  have leaf : ∀ node : Node, node.span = span → node.children = [] →
      (∀ element, node.element? = some element → element.Placed source tokens) →
      Reaches source tokens (draft.add node).nodes (draft.add node).opened
        span.stop := by
    rintro node rfl childless placed
    refine add_reaches reaches (.intro ⟨nonempty, ⟨text, here⟩, placed⟩ ?_)
    simp [childless]
  unfold step at stepped
  cases kind with
  | startTag tag =>
      dsimp only at stepped
      split at stepped
      · rename_i single
        cases stepped
        refine leaf _ rfl rfl ?_
        intro element same
        cases same
        exact ⟨read, rfl, nonempty, Nat.le_refl _, fun _ => ⟨rfl, rfl⟩,
          fun paired => absurd single paired⟩
      · rename_i paired
        cases stepped
        exact ⟨⟨read, paired, nonempty, ⟨text, here⟩⟩, ⟨[], .nil _⟩,
          by simp, reaches⟩
  | endTag name =>
      dsimp only at stepped
      split at stepped
      · rename_i inner found
        cases stepped
        obtain ⟨bound, matched, _⟩ := List.findIdx?_eq_some_iff_getElem.mp found
        have closed := closeMany_reaches reaches inner
        have tags := closeMany_opened draft span.start inner
        rw [List.drop_eq_getElem_cons (by simpa using bound)] at tags
        cases shape : (draft.closeMany span.start inner).opened with
        | nil => simp [shape] at tags
        | cons top below =>
            rw [shape, List.map_cons, List.cons.injEq] at tags
            refine close_reaches shape closed (.endTag read ?_ here)
            rw [tags.1]
            simpa using matched
      · split at stepped
        · rename_i isVoid
          cases stepped
          cases shape : draft.opened with
          | nil =>
              rw [shape] at reaches
              obtain ⟨⟨before, tiles⟩, all⟩ := reaches
              exact ⟨⟨_, tiles.append_passed read isVoid here⟩, all⟩
          | cons top below =>
              rw [shape] at reaches
              obtain ⟨begun, ⟨before, tiles⟩, all, around⟩ := reaches
              exact ⟨begun, ⟨_, tiles.append_passed read isVoid here⟩, all,
                around⟩
        · cases stepped
  | text content =>
      cases stepped
      exact leaf _ rfl rfl (by simp [Node.element?])
  | comment content =>
      cases stepped
      exact leaf _ rfl rfl (by simp [Node.element?])
  | doctype content =>
      cases stepped
      exact leaf _ rfl rfl (by simp [Node.element?])
  | eof => exact absurd rfl proper

/-- Tokens that tile the text carry the draft from one end of the text to the
other. -/
theorem run_reaches {body : List Token} {cursor last : Cursor}
    (stands : cursor.Stands source.chars)
    (tiles : Token.Tiling source.chars cursor body last)
    (read : ∀ token ∈ body, token ∈ tokens)
    (reaches : Reaches source tokens draft.nodes draft.opened cursor.offset)
    (run : body.foldlM (step source) draft = .ok next) :
    Reaches source tokens next.nodes next.opened last.offset := by
  induction body generalizing cursor draft with
  | nil =>
      cases tiles
      cases run
      exact reaches
  | cons token rest induction =>
      obtain ⟨taken, middle, some, reads, span, proper, tail⟩ := tiles
      rw [List.foldlM_cons] at run
      obtain ⟨between, stepped, run⟩ := Except.bind_eq_ok.mp run
      have first : Reaches source tokens between.nodes between.opened
          middle.offset := by
        have nonempty : token.span.start < token.span.stop := by
          rw [span]
          exact reads.offset_lt some
        have here : source.slice? token.span = Option.some taken := by
          rw [span]
          exact stands.slice? reads
        have begun : Reaches source tokens draft.nodes draft.opened
            token.span.start := by
          rw [span]
          exact reaches
        have carried := step_reaches (read token (List.mem_cons_self ..))
          nonempty here
          proper.not_eof begun stepped
        rwa [span] at carried
      exact induction (stands.reads reads) tail
        (fun other member => read other (List.mem_cons_of_mem _ member)) first
          run

end Draft

/-- The nodes of a document tile its text, and each is placed. -/
theorem parse_places {source : Source} {document : Document}
    (parsed : parse source = .ok document) :
    ∃ tokens, source.tokens = .ok tokens ∧
      Tiles source tokens 0 document.nodes source.length source.chars ∧
      ∀ node ∈ document.nodes, node.All (Node.Placed source tokens) := by
  unfold parse at parsed
  obtain ⟨tokens, scanned, parsed⟩ := Except.bind_eq_ok.mp parsed
  obtain ⟨draft, run, parsed⟩ := Except.bind_eq_ok.mp parsed
  rw [Except.mapError_eq_ok] at scanned
  rw [Except.pure_eq_ok] at parsed
  subst parsed
  obtain ⟨body, last, rfl, tiles, stop⟩ := Source.tokens_tile scanned
  rw [List.foldlM_append] at run
  obtain ⟨unclosed, ran, closed⟩ := Except.bind_eq_ok.mp run
  have stands := Cursor.stands_start source.chars
  have start : Reaches source (body ++ [⟨.eof, ⟨last.offset, last.offset⟩⟩])
      Draft.empty.nodes
      Draft.empty.opened 0 :=
    ⟨⟨[], .nil 0⟩, by simp [Draft.empty]⟩
  have reached := Draft.run_reaches stands tiles
    (fun token member => List.mem_append_left _ member) start ran
  have finished := Draft.closeMany_reaches reached unclosed.opened.length
  have none_left :
      (unclosed.closeMany last.offset unclosed.opened.length).opened = [] := by
    have tags :=
      Draft.closeMany_opened unclosed last.offset unclosed.opened.length
    rw [List.drop_of_length_le (by simp)] at tags
    exact List.map_eq_nil_iff.mp tags
  simp only [List.foldlM_cons, List.foldlM_nil, Draft.step, bind_pure,
    Except.ok.injEq] at closed
  rw [none_left, closed] at finished
  obtain ⟨⟨text, whole⟩, all⟩ := finished
  have same : text = source.chars := by
    have spelled := whole.slice? (isCut_zero source.chars)
    rw [stop] at spelled
    exact Option.some.inj (spelled.symm.trans (slice?_whole source.chars))
  subst same
  refine ⟨_, scanned, ?_, all⟩
  rw [← stop]
  exact whole

/-- Every element of a document stands where its tags say: its start tag begins
its span; a single element is its start tag; behind the start tag of any other
one stand its children and the end tags of void elements, which are passed over,
and last its own end tag or nothing. The top-level nodes tile the whole text in
the same way. So of any two nodes, one lies inside the other or they are
apart. -/
theorem parse_geometry {source : Source} {document : Document}
    (parsed : parse source = .ok document) :
    ∃ tokens, source.tokens = .ok tokens ∧
      Tiles source tokens 0 document.nodes source.length source.chars ∧
      (∀ entry ∈ document.listing, ∀ element, entry.2.element? = some element →
        element.Placed source tokens) ∧
      ∀ first ∈ document.listing, ∀ second ∈ document.listing,
        first.2.span.NestedOrDisjoint second.2.span := by
  obtain ⟨tokens, scanned, tiles, all⟩ := parse_places parsed
  refine ⟨tokens, scanned, tiles, ?_, ?_⟩
  · intro entry member element found
    obtain ⟨node, top, below⟩ := Node.mem_forestListing.mp member
    exact ((all node top).of_listing 0 entry below).element element found
  · exact Node.nestedOrDisjoint_of_forest tiles.pairwise all
      fun node member => (all node member).nestedOrDisjoint 0

/-- A paragraph that the end tag around it ends, with an end tag inside that is
passed over. -/
theorem parse_geometry_unclosed :
    let source := Source.ofText "<div><p>a</br>b</div><br/>é"
    ∃ document, parse source = .ok document ∧
      document.listing.map (fun entry => entry.2.span) =
        [⟨0, 21⟩, ⟨5, 15⟩, ⟨8, 9⟩, ⟨14, 15⟩, ⟨21, 26⟩, ⟨26, 28⟩] ∧
      ∃ tokens, source.tokens = .ok tokens ∧
        Tiles source tokens 0 document.nodes source.length source.chars ∧
        (∀ entry ∈ document.listing, ∀ element,
          entry.2.element? = some element →
          element.Placed source tokens) ∧
        ∀ first ∈ document.listing, ∀ second ∈ document.listing,
          first.2.span.NestedOrDisjoint second.2.span := by
  intro source
  have spans : (parse source).map
      (fun document => document.listing.map fun entry => entry.2.span) =
        .ok [⟨0, 21⟩, ⟨5, 15⟩, ⟨8, 9⟩, ⟨14, 15⟩, ⟨21, 26⟩, ⟨26, 28⟩] := by
    decide +kernel
  obtain ⟨document, parsed, listed⟩ := Except.map_eq_ok.mp spans
  exact ⟨document, parsed, listed, parse_geometry parsed⟩

end Document

end Stencil
