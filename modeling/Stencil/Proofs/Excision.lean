import Stencil.Proofs.Drafts

namespace Stencil

open Text

/-! The tokens of an element stand together, and alone they make the element.
What an end tag ends, and what a token is put into, is found among the elements
that are opened last, so an element never depends on the tokens in front of
it. -/

namespace Token

def edge (stop : Nat) : List Token → Nat
  | [] => stop
  | token :: _ => token.span.start

/-- Tokens may be parted here: a raw text stays with its start tag. -/
def Seam (left right : List Token) : Prop :=
  ∀ tag span, left.getLast? = some ⟨.startTag tag, span⟩ → tag.isRaw →
    ∀ token ∈ right.head?, token.isText = false

variable {chars : List Char} {cursor next : Cursor}
  {tokens left right before after : List Token}

theorem Tiling.split (tiling : Tiling chars cursor (left ++ right) next) :
    ∃ middle, Tiling chars cursor left middle ∧
      Tiling chars middle right next := by
  induction left generalizing cursor with
  | nil => exact ⟨cursor, rfl, tiling⟩
  | cons token rest induction =>
      obtain ⟨taken, inner, some, reads, span, proper, behind⟩ := tiling
      obtain ⟨middle, first, second⟩ := induction behind
      exact ⟨middle, ⟨taken, inner, some, reads, span, proper, first⟩, second⟩

theorem Tiling.edge_eq (tiling : Tiling chars cursor tokens next) :
    edge next.offset tokens = cursor.offset := by
  cases tokens with
  | nil =>
      cases tiling
      rfl
  | cons token rest =>
      obtain ⟨_, _, _, _, span, _⟩ := tiling
      rw [edge, span]

theorem Tiling.edge_behind {token : Token}
    (tiling : Tiling chars cursor (before ++ token :: after) next) :
    edge next.offset after = token.span.stop := by
  obtain ⟨_, _, _, _, _, _, span, _, behind⟩ := tiling.split
  rw [behind.edge_eq, span]

theorem Tiling.stop_le_edge {token : Token}
    (tiling : Tiling chars cursor (before ++ (token :: left ++ after)) next) :
    token.span.stop ≤ edge next.offset after := by
  obtain ⟨_, _, _, _, _, _, span, _, behind⟩ := tiling.split
  obtain ⟨_, between, behind⟩ := Tiling.split behind
  obtain ⟨_, reads⟩ := between.exists_reads
  rw [behind.edge_eq, span]
  exact reads.offset_le

theorem readNext_seam (read : readNext cursor = .ok (left ++ right, next))
    (seam : Seam left right) : left = [] ∨ right = [] := by
  cases left with
  | nil => exact .inl rfl
  | cons token rest =>
      right
      rcases readNext_cases read with ⟨_, _, _, _, read⟩ | ⟨_, only, _⟩ |
        ⟨_, only, _⟩
      · obtain ⟨tag, stop, _, _, raw, shape, behind⟩ := readStartTag_cases read
        obtain ⟨rfl, same⟩ : token = _ ∧ rest ++ right = raw :=
          List.cons.inj shape
        rcases behind with ⟨_, rfl, _⟩ | ⟨isRaw, rfl, _⟩
        · exact (List.append_eq_nil_iff.mp same).2
        · rcases readRawText_tokens
            ((cursor.advance 1).rest.takeWhile isNamePart) stop with
            none | ⟨content, only⟩
          · exact (List.append_eq_nil_iff.mp (same.trans none)).2
          · cases rest with
            | nil =>
                have text := seam tag _ rfl isRaw ⟨.text content, _⟩ (by
                  rw [show right = _ from same.trans only]
                  rfl)
                cases text
            | cons second others =>
                have none := (List.cons.inj (same.trans only)).2
                exact (List.append_eq_nil_iff.mp none).2
      · exact (List.append_eq_nil_iff.mp (List.cons.inj only).2).2
      · exact (List.append_eq_nil_iff.mp (List.cons.inj only).2).2

/-- Reads may be parted wherever tokens may. -/
theorem Scans.split (scans : Scans cursor (left ++ right) next)
    (seam : Seam left right) :
    ∃ middle, Scans cursor left middle ∧ Scans middle right next := by
  generalize whole : left ++ right = tokens at scans
  induction scans generalizing left with
  | done cursor =>
      obtain ⟨rfl, rfl⟩ := List.append_eq_nil_iff.mp whole
      exact ⟨cursor, .done cursor, .done cursor⟩
  | @read cursor middle next first rest more here behind induction =>
      rcases List.append_eq_append_iff.mp whole with ⟨between, rfl, rfl⟩ |
        ⟨between, rfl, rfl⟩
      · have within : Seam left between := by
          intro tag span last raw token head
          apply seam tag span last raw
          rw [List.head?_append, head]
          rfl
        rcases readNext_seam here within with rfl | rfl
        · exact ⟨cursor, .done cursor, .read more here behind⟩
        · have scansFirst := Scans.read more here (.done middle)
          rw [List.append_nil, List.append_nil] at scansFirst
          exact ⟨middle, scansFirst, behind⟩
      · have later : Seam between right := by
          intro tag span last
          apply seam tag span
          rw [List.getLast?_append, last]
          rfl
        obtain ⟨inner, scansFirst, scansRest⟩ := induction later rfl
        exact ⟨inner, .read more here scansFirst, scansRest⟩

end Token

namespace Document

namespace Draft

def Holds (P : Node → Prop) (draft : Draft) : Prop :=
  (∀ node ∈ draft.nodes, P node) ∧ ∀ opened ∈ draft.opened,
    ∀ child ∈ opened.children, P child

variable {P : Node → Prop} {draft next : Draft} {node : Node}

theorem Holds.add (holds : draft.Holds P) (here : P node) :
    (draft.add node).Holds P := by
  have extended : ∀ {nodes : List Node}, (∀ other ∈ nodes, P other) →
      ∀ other ∈ nodes ++ [node], P other := by
    intro nodes all other member
    rcases List.mem_append.mp member with before | last
    · exact all other before
    · rw [List.mem_singleton.mp last]
      exact here
  obtain ⟨opened, nodes⟩ := draft
  cases opened with
  | nil => exact ⟨extended holds.1, holds.2⟩
  | cons top below =>
      refine ⟨holds.1, fun opened member => ?_⟩
      rcases List.mem_cons.mp member with rfl | member
      · exact extended (holds.2 top (List.mem_cons_self ..))
      · exact holds.2 opened (List.mem_cons_of_mem _ member)

theorem add_split {upper lower : List Opened} {bottom : Opened}
    (shape : (draft.add node).opened = upper ++ bottom :: lower) :
    ∃ inner last, draft.opened = inner ++ last :: lower ∧
      last.tag = bottom.tag ∧
      last.tagSpan = bottom.tagSpan ∧
      (⟨inner ++ [last], []⟩ : Draft).add node = ⟨upper ++ [bottom], []⟩ := by
  obtain ⟨opened, nodes⟩ := draft
  cases opened with
  | nil => simp [Draft.add] at shape
  | cons top below =>
      cases upper with
      | nil =>
          obtain ⟨rfl, rfl⟩ := List.cons.inj shape
          exact ⟨[], top, rfl, rfl, rfl, rfl⟩
      | cons first others =>
          obtain ⟨rfl, rfl⟩ := List.cons.inj shape
          exact ⟨top :: others, bottom, rfl, rfl, rfl, rfl⟩

/-- Some of the tokens make the node, and the node reaches from the first of
them to what follows the last. -/
structure Cutout (tokens : List Token) (stop : Nat) (node : Node)
    (before segment after : List Token) : Prop where
  shape : tokens = before ++ (segment ++ after)
  begins : ∃ tag span more, segment = ⟨.startTag tag, span⟩ :: more
  seam : Token.Seam segment after
  makes : ∃ draft, empty.Runs segment draft ∧
    draft.ended (Token.edge stop after) = ⟨[], [node]⟩
  span : node.span = ⟨Token.edge stop (segment ++ after), Token.edge stop after⟩

def Excised (tokens : List Token) (stop : Nat) (node : Node) : Prop :=
  node.element?.isSome → ∃ before segment after,
    Cutout tokens stop node before segment after

/-- All complete elements are cut out of the tokens, and each open one, with
those inside it, is what the tokens from its start tag on make. -/
structure Traced (tokens : List Token) (stop : Nat) (rest : List Token)
    (draft : Draft) : Prop where
  shape : ∃ done, tokens = done ++ rest
  complete : draft.Holds (Node.All (Excised tokens stop))
  begun : ∀ upper bottom lower, draft.opened = upper ++ bottom :: lower →
    ∃ before more, tokens = before ++ (⟨.startTag bottom.tag, bottom.tagSpan⟩ ::
      more ++ rest) ∧
      empty.Runs (⟨.startTag bottom.tag, bottom.tagSpan⟩ :: more)
        ⟨upper ++ [bottom], []⟩

variable {chars : List Char} {cursor last : Cursor} {tokens rest : List Token}

theorem ended_span (opened : Opened) (inside : Option Node) (stop : Nat) :
    ((opened.holding inside).ended stop).span =
      ⟨opened.tagSpan.start, max stop opened.tagSpan.stop⟩ := by
  cases inside <;> rfl

theorem ended_children (opened : Opened) (inside : Option Node) (stop : Nat) :
    ((opened.holding inside).ended stop).children =
      opened.children ++ inside.toList := by
  cases inside with
  | none => exact (List.append_nil _).symm
  | some node => rfl

theorem Traced.nest (traced : draft.Traced tokens last.offset rest)
    (tiling : Token.Tiling chars cursor tokens last)
    (plain : ∀ token ∈ rest.head?, token.isText = false)
    {inner outer : List Opened} (shape : draft.opened = inner ++ outer) :
    ∀ node, Opened.nest (Token.edge last.offset rest) none inner = some node →
      node.All (Excised tokens last.offset) := by
  induction inner using List.reverseRecOn generalizing outer with
  | nil => exact fun node none => by cases none
  | append_singleton inner bottom induction =>
      intro node nested
      rw [List.append_assoc] at shape
      have below := induction shape
      obtain ⟨before, more, split, runs⟩ :=
        traced.begun inner bottom outer shape
      have reach := Token.Tiling.stop_le_edge (split ▸ tiling)
      have made :
          (bottom.holding (Opened.nest (Token.edge last.offset rest) none
            inner)).ended
          (Token.edge last.offset rest) = node := by
        rw [Opened.nest_append] at nested
        exact Option.some.inj nested
      refine .intro (fun _ =>
        ⟨before, _, rest, split, ⟨_, _, more, rfl⟩, ?_, ⟨_, runs, ?_⟩, ?_⟩) ?_
      · exact fun _ _ _ _ token head => plain token head
      · rw [ended, nested]
        rfl
      · rw [← made, ended_span, Nat.max_eq_left reach]
        rfl
      · intro child inside
        rw [← made, ended_children] at inside
        rcases List.mem_append.mp inside with inside | nestedInside
        · exact traced.complete.2 bottom (by simp [shape]) child inside
        · exact below child (Option.mem_toList.mp nestedInside)

theorem Traced.leaf {token : Token}
    (traced : draft.Traced tokens last.offset (token :: rest))
    (tiling : Token.Tiling chars cursor tokens last)
    (made : token.leaf? = some node) :
    node.All (Excised tokens last.offset) := by
  obtain ⟨done, shape⟩ := traced.shape
  have reach := Token.Tiling.edge_behind (shape ▸ tiling)
  obtain ⟨kind, span⟩ := token
  cases kind with
  | startTag tag =>
      by_cases single : tag.isSingle
      · obtain rfl : Node.element tag span span [] = node :=
          Option.some.inj ((if_pos single).symm.trans made)
        refine .intro (fun _ => ⟨done, [⟨.startTag tag, span⟩], rest, shape,
          ⟨tag, span, [], rfl⟩, ?_, ⟨_, runs_singleton.mpr (.leaf made), rfl⟩,
          ?_⟩)
          (fun _ inside => by cases inside)
        · intro other place final raw
          cases final
          exact absurd raw (Tag.not_raw_of_single single)
        · rw [reach]
          rfl
      · cases (if_neg single).symm.trans made
  | endTag | eof => cases made
  | text | comment | doctype =>
      obtain rfl := Option.some.inj made
      exact .intro (fun isElement => by cases isElement)
        (fun _ inside => by cases inside)

theorem Traced.closed {name : String} {span : Span} {inner outer : List Opened}
    {top : Opened}
    (traced : draft.Traced tokens last.offset (⟨.endTag name, span⟩ :: rest))
    (tiling : Token.Tiling chars cursor tokens last)
    (shape : draft.opened = inner ++ top :: outer)
    (same : sameIgnoringCase top.tag.name name)
    (others : ∀ opened ∈ inner, ¬ sameIgnoringCase opened.tag.name name) :
    ((top.holding (Opened.nest span.start none inner)).ended span.stop).All
      (Excised tokens last.offset) := by
  obtain ⟨before, more, split, runs⟩ := traced.begun inner top outer shape
  have member : ⟨.endTag name, span⟩ ∈ tokens := by simp [split]
  have nonempty : span.start < span.stop := (tiling.within _ member).2.1
  have reach : top.tagSpan.stop ≤ span.start :=
    Token.Tiling.stop_le_edge (split ▸ tiling)
  have whole : tokens = (before ++ ⟨.startTag top.tag, top.tagSpan⟩ :: more) ++
      ⟨.endTag name, span⟩ :: rest := by
    rw [split, List.append_assoc]
  have stop := Token.Tiling.edge_behind (whole ▸ tiling)
  refine .intro (fun _ => ⟨before,
    ⟨.startTag top.tag, top.tagSpan⟩ :: more ++ [⟨.endTag name, span⟩], rest,
    ?_,
    ⟨_, _, _, rfl⟩, ?_, ⟨_, runs.concat (.closes rfl same others), rfl⟩, ?_⟩) ?_
  · rw [split]
    simp
  · intro tag place final
    rw [List.getLast?_concat] at final
    cases final
  · rw [ended_span, stop,
      Nat.max_eq_left (Nat.le_trans reach (Nat.le_of_lt nonempty))]
    rfl
  · intro child inside
    rw [ended_children] at inside
    rcases List.mem_append.mp inside with inside | nested
    · exact traced.complete.2 top (by simp [shape]) child inside
    · exact traced.nest tiling (by simp [Token.isText]) shape child
        (Option.mem_toList.mp nested)

theorem Runs.extends {start token : Token} {before more : List Token}
    {middle : Draft}
    (split : tokens = before ++ (start :: more ++ token :: rest))
    (runs : draft.Runs (start :: more) middle)
    (takes : middle.Takes token next) :
    ∃ before more, tokens = before ++ (start :: more ++ rest) ∧
      draft.Runs (start :: more) next :=
  ⟨before, more ++ [token], by simp [split], runs.concat takes⟩

theorem Takes.traced {token : Token} (takes : draft.Takes token next)
    (traced : draft.Traced tokens last.offset (token :: rest))
    (tiling : Token.Tiling chars cursor tokens last) :
    next.Traced tokens last.offset rest := by
  obtain ⟨done, shape⟩ := traced.shape
  have onward : ∃ done, tokens = done ++ rest :=
    ⟨done ++ [token], by simp [shape]⟩
  cases takes with
  | leaf made =>
      refine ⟨onward, traced.complete.add (traced.leaf tiling made), ?_⟩
      intro upper bottom lower split
      obtain ⟨inner, top, below, tag, tagSpan, added⟩ := add_split split
      obtain ⟨before, more, split, runs⟩ := traced.begun inner top lower below
      rw [tag, tagSpan] at split runs
      have leaf : Takes ⟨inner ++ [top], []⟩ token
        (Draft.add ⟨inner ++ [top], []⟩ _) := .leaf made
      rw [added] at leaf
      exact runs.extends split leaf
  | @opens tag span paired =>
      refine ⟨onward, ⟨traced.complete.1, ?_⟩, ?_⟩
      · intro opened member
        rcases List.mem_cons.mp member with rfl | member
        · intro child inside
          cases inside
        · exact traced.complete.2 opened member
      · intro upper bottom lower split
        cases upper with
        | nil =>
            obtain ⟨rfl, rfl⟩ := List.cons.inj split
            exact ⟨done, [], shape, runs_singleton.mpr (.opens paired)⟩
        | cons top inner =>
            obtain ⟨rfl, below⟩ := List.cons.inj split
            obtain ⟨before, more, split, runs⟩ :=
              traced.begun inner bottom lower below
            exact runs.extends split (.opens paired)
  | @closes name span inner outer top split same others =>
      have around : (⟨outer, draft.nodes⟩ : Draft).Holds
          (Node.All (Excised tokens last.offset)) :=
        ⟨traced.complete.1, fun opened member =>
          traced.complete.2 opened (by simp [split, member])⟩
      refine ⟨onward, around.add (traced.closed tiling split same others), ?_⟩
      intro upper bottom lower shape
      obtain ⟨between, last, below, tag, tagSpan, added⟩ := add_split shape
      have whole :
          draft.opened = (inner ++ top :: between) ++ last :: lower := by
        rw [split, show outer = _ from below, List.append_assoc,
          List.cons_append]
      obtain ⟨before, more, split, runs⟩ := traced.begun _ last lower whole
      rw [tag, tagSpan] at split runs
      have closes : Takes ⟨(inner ++ top :: between) ++ [last], []⟩
          ⟨.endTag name, span⟩
          (Draft.add ⟨between ++ [last], []⟩ _) :=
        .closes (List.append_assoc ..) same others
      rw [added] at closes
      exact runs.extends split closes
  | passes isVoid unopened =>
      refine ⟨onward, traced.complete, ?_⟩
      intro upper bottom lower split
      obtain ⟨before, more, shape, runs⟩ :=
        traced.begun upper bottom lower split
      refine runs.extends shape
        (.passes isVoid fun opened member => unopened opened ?_)
      rw [split]
      exact List.mem_append.mpr
          ((List.mem_append.mp member).imp_right fun last =>
            List.mem_cons.mpr (.inl (List.mem_singleton.mp last)))
  | @ends span =>
      have member : ⟨.eof, span⟩ ∈ tokens := by simp [shape]
      exact absurd rfl (tiling.proper _ member).not_eof

theorem Runs.traced (runs : draft.Runs rest next)
    (traced : draft.Traced tokens last.offset rest)
    (tiling : Token.Tiling chars cursor tokens last) :
    next.Traced tokens last.offset [] := by
  induction runs with
  | done => exact traced
  | step here _ induction => exact induction (here.traced traced tiling)

end Draft

/-- The tokens of every element of a document stand together and make it. -/
theorem parse_excised {source : Source} {document : Document}
    (parsed : parse source = .ok document) :
    ∃ body last, Token.Scans ⟨0, source.chars⟩ body last ∧
      ∀ node ∈ document.nodes, node.All (Draft.Excised body last.offset) := by
  obtain ⟨body, last, draft, scans, done, runs, nodes⟩ := parse_eq_ok.mp parsed
  refine ⟨body, last, scans, ?_⟩
  have tiling := scans.tiling (Cursor.stands_start source.chars)
  have start : Draft.empty.Traced body last.offset body :=
    ⟨⟨[], rfl⟩, ⟨by simp [Draft.empty], by simp [Draft.empty]⟩,
      by simp [Draft.empty]⟩
  have traced := runs.traced start tiling
  intro node member
  rw [nodes, Draft.ended] at member
  rcases List.mem_append.mp member with complete | nested
  · exact traced.complete.1 node complete
  · exact traced.nest tiling (by simp) (List.append_nil _).symm node
      (Option.mem_toList.mp nested)

end Document

end Stencil
