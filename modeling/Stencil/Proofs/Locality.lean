import Stencil.Proofs.Excision
import Stencil.Proofs.Flattening
import Stencil.Proofs.Shifting

namespace Stencil

/-! An element does not depend on what is around it. The text under its span,
taken as a template of its own, is that element and nothing else. -/

namespace Source

open Text

theorem ofText_slice {raw : String} {span : Span} {chars : List Char}
    (slice : (ofText raw).slice? span = some chars)
    (first : ∀ char ∈ chars.head?, ¬ isBlank char)
    (last : ∀ char ∈ chars.getLast?, ¬ isBlank char) :
    (ofText (String.ofList chars)).chars = chars := by
  refine ofText_of_flat ⟨fun inside => ?_, first, last⟩
  obtain ⟨before, after, split, _⟩ := slice?_eq_some.mp slice
  apply (flat_ofText raw).oneLine
  rw [split]
  simp [inside]

end Source

namespace Token

open Text

variable {cursor next : Cursor} {tokens more : List Token} {taken : List Char}

theorem Scans.head?_of_startTag {tag : Tag} {span : Span}
    (scans : Scans cursor (⟨.startTag tag, span⟩ :: more) next) :
    cursor.rest.head? = some '<' := by
  generalize shape : ⟨.startTag tag, span⟩ :: more = tokens at scans
  cases scans with
  | done => cases shape
  | read _ here _ =>
      rcases readNext_cases here with ⟨_, _, opens, _⟩ |
        ⟨token, rfl, _, other⟩ | ⟨_, rfl, _⟩
      · rw [opens]
        rfl
      · exact absurd (congrArg Token.kind (List.cons.inj shape).1).symm
          (other tag)
      · cases (List.cons.inj shape).1

/-- Reads of a part of a text are reads of that part alone. -/
theorem Scans.alone (scans : Scans cursor tokens next)
    (reads : cursor.Reads taken next) :
    ∃ clipped last, Scans ⟨0, taken⟩ clipped last ∧ last.rest = [] ∧
      tokens = clipped.map (fun token => token.shift cursor.offset) ∧
      next.offset = cursor.offset + last.offset := by
  obtain ⟨offset, rest⟩ := cursor
  obtain rfl : rest = taken ++ next.rest := reads.1
  have whole : Scans (Cursor.widen ⟨0, taken⟩ offset next.rest) tokens next :=
    scans
  obtain ⟨clipped, last, alone, done, same, stop⟩ := whole.clips rfl
  exact ⟨clipped, last, alone, done, same, congrArg Cursor.offset stop⟩

end Token

namespace Document

open Text

variable {body before segment after : List Token} {node : Node}
  {chars : List Char} {last : Cursor}

theorem Draft.Cutout.scans
    (cutout : Draft.Cutout body last.offset node before segment after)
    (scans : Token.Scans ⟨0, chars⟩ body last) :
    ∃ start stop outer, Token.Scans start segment stop ∧
      start.Reads outer stop ∧
      start.Stands chars ∧ start.rest.head? = some '<' ∧
      Token.edge last.offset (segment ++ after) = start.offset ∧
      Token.edge last.offset after = stop.offset := by
  obtain ⟨tag, span, more, begins⟩ := cutout.begins
  have left : Token.Seam before (segment ++ after) := by
    intro _ _ _ _ token head
    rw [begins] at head
    cases head
    rfl
  have stands := Cursor.stands_start chars
  rw [cutout.shape] at scans
  obtain ⟨start, ahead, scans⟩ := scans.split left
  obtain ⟨_, reads⟩ := (ahead.tiling stands).exists_reads
  have stands := stands.reads reads
  have whole := (scans.tiling stands).edge_eq
  obtain ⟨stop, scans, behind⟩ := scans.split cutout.seam
  obtain ⟨outer, reads⟩ := (scans.tiling stands).exists_reads
  have rest := (behind.tiling (stands.reads reads)).edge_eq
  refine ⟨start, stop, outer, scans, reads, stands, ?_, whole, rest⟩
  rw [begins] at scans
  exact scans.head?_of_startTag

/-- A source whose tokens, counted from further ahead, make one node is that
node. -/
theorem parse_of_shifted {source : Source} {tokens : List Token} {draft : Draft}
    {origin : Nat} (scans : Token.Scans ⟨0, source.chars⟩ tokens last)
    (done : last.rest = [])
    (runs : Draft.empty.Runs (tokens.map fun token => token.shift origin) draft)
    (ended : draft.ended (origin + last.offset) = ⟨[], [node]⟩) :
    ∃ inside, parse source = .ok ⟨[inside]⟩ ∧ inside.shift origin = node := by
  have shifted : (Draft.empty.shift origin).Runs
      (tokens.map fun token => token.shift origin) draft := runs
  obtain ⟨inside, makes, rfl⟩ := shifted.of_shift
  rw [← Draft.ended_shift] at ended
  have nodes : (inside.ended last.offset).nodes.map (Node.shift origin) =
      [node] :=
    congrArg Draft.nodes ended
  obtain ⟨only, none, made, same, empty⟩ := List.map_eq_cons_iff.mp nodes
  obtain rfl := List.map_eq_nil_iff.mp empty
  exact ⟨only, parse_eq_ok.mpr ⟨tokens, last, inside, scans, done, makes,
    made.symm⟩, same⟩

/-- The text of an element, taken by itself, gives the element and nothing else,
if no blanks at its end are lost. Its spans are those that it has in its
document, counted from its own beginning. -/
theorem parse_outerText {raw : String} {document : Document}
    (parsed : parse (Source.ofText raw) = .ok document) :
    ∀ entry ∈ document.listing, ∀ element, entry.2.element? = some element →
      ∃ outer, (Source.ofText raw).slice? element.span = some outer ∧
        ((∀ char ∈ outer.getLast?, ¬ isBlank char) →
          ∃ node, parse (Source.ofText (String.ofList outer)) = .ok ⟨[node]⟩ ∧
            node.shift element.span.start = element.node) := by
  intro entry listed element found
  obtain ⟨body, last, scans, excised⟩ := parse_excised parsed
  obtain ⟨top, member, listed⟩ := Node.mem_forestListing.mp listed
  obtain ⟨before, segment, after, cutout⟩ :=
    (excised top member).of_listing 0 entry listed (by rw [found]; rfl)
  rw [Element.eq_node_of_element? found] at cutout
  obtain ⟨start, stop, outer, scans, reads, stands, opens, whole, rest⟩ :=
    cutout.scans scans
  have span : element.span = ⟨start.offset, stop.offset⟩ := by
    rw [← whole, ← rest]
    exact cutout.span
  have slice : (Source.ofText raw).slice? ⟨start.offset, stop.offset⟩ =
      some outer :=
    stands.slice? reads
  rw [span]
  refine ⟨outer, slice, fun final => ?_⟩
  obtain ⟨tokens, last, alone, done, rfl, stop_eq⟩ := scans.alone reads
  obtain ⟨tag, place, more, begins⟩ := cutout.begins
  have nonempty : outer ≠ [] := by
    apply alone.rest_ne_nil
    rintro rfl
    cases begins
  have flat : (Source.ofText (String.ofList outer)).chars = outer := by
    apply Source.ofText_slice slice _ final
    intro char head
    rw [reads.1, List.head?_append_of_ne_nil _ nonempty] at opens
    obtain rfl := Option.some.inj (opens.symm.trans head)
    decide
  obtain ⟨draft, runs, ended⟩ := cutout.makes
  rw [rest, stop_eq] at ended
  rw [← flat] at alone
  exact parse_of_shifted alone done runs ended

/-- An item that the end tag of its list ends, behind a character of two
bytes. -/
theorem parse_outerText_item :
    let source := Source.ofText "<p>é<ul id='a'><li b=c>x<br>y</ul> z"
    ∃ document entry element,
      parse source = .ok document ∧ entry ∈ document.listing ∧
      entry.2.element? = some element ∧ element.name = "li" ∧
      element.span = ⟨16, 30⟩ ∧
      source.slice? element.span = some "<li b=c>x<br>y".toList ∧
      ∃ node, parse (Source.ofText (String.ofList "<li b=c>x<br>y".toList)) =
        .ok ⟨[node]⟩ ∧
        node.shift 16 = element.node := by
  intro source
  have shape : (parse source).map (fun document =>
      (document.listing.filterMap fun entry => entry.2.element?).map
          fun element => (element.name, element.span)) =
      .ok [("p", ⟨0, 37⟩), ("ul", ⟨5, 35⟩), ("li", ⟨16, 30⟩),
        ("br", ⟨25, 29⟩)] := by
    decide +kernel
  obtain ⟨document, parsed, elements⟩ := Except.map_eq_ok.mp shape
  obtain ⟨_, _, all, _, elements⟩ := List.map_eq_cons_iff.mp elements
  obtain ⟨_, _, rfl, _, elements⟩ := List.map_eq_cons_iff.mp elements
  obtain ⟨element, _, rfl, item, _⟩ := List.map_eq_cons_iff.mp elements
  obtain ⟨name, span⟩ := Prod.mk.inj item
  obtain ⟨entry, member, found⟩ := List.mem_filterMap.mp
    (show element ∈ document.listing.filterMap fun entry =>
      entry.2.element? by simp [all])
  obtain ⟨outer, slice, local_⟩ :=
    parse_outerText parsed entry member element found
  rw [span] at slice local_
  have text : source.slice? ⟨16, 30⟩ = some "<li b=c>x<br>y".toList := by
    decide +kernel
  obtain rfl := Option.some.inj (slice.symm.trans text)
  refine ⟨document, entry, element, parsed, member, found, name, span, ?_,
    local_ ?_⟩
  · rw [span]
    exact text
  · intro char final
    have last : "<li b=c>x<br>y".toList.getLast? = some 'y' := by decide +kernel
    obtain rfl := Option.some.inj (last.symm.trans final)
    decide

end Document

end Stencil
