import Stencil.Declaration
import Stencil.Proofs.Borders
import Stencil.Proofs.Settled

namespace Stencil

open Text
open Marker (Context)

/-! Where the location of a marker agrees with the tokens. A run of markup is
read as text from between two tokens on, so among settled tokens this reading
comes to each of them in text. -/

namespace Token

variable {chars : List Char} {origin cursor next : Cursor} {tokens : List Token}
  {limit : Nat}

theorem Tiling.contextAt_start (tiling : Tiling chars cursor tokens next)
    (apart : ∀ token ∈ tokens,
      origin.offset ≤ token.span.start ∨ token.span.stop ≤ origin.offset)
    (carried : ∀ token ∈ tokens, Span.covers ⟨origin.offset, limit⟩ token.span →
      ContextAt origin token.span.start .text →
      ContextAt origin token.span.stop .text)
    (here : origin.offset ≤ cursor.offset → cursor.offset ≤ limit →
      ContextAt origin cursor.offset .text) :
    ∀ token ∈ tokens, Span.covers ⟨origin.offset, limit⟩ token.span →
      ContextAt origin token.span.start .text := by
  induction tokens generalizing cursor with
  | nil => simp
  | cons token rest induction =>
      obtain ⟨taken, middle, some, reads, span, _, behind⟩ := tiling
      have forward := reads.offset_lt some
      rw [List.forall_mem_cons, span] at apart carried
      dsimp only at apart carried
      have there : origin.offset ≤ middle.offset → middle.offset ≤ limit →
          ContextAt origin middle.offset .text := by
        intro after before
        rcases apart.1 with inside | outside
        · exact carried.1 (Span.covers_iff.mpr ⟨inside, before⟩)
            (here inside (by omega))
        · rw [show middle.offset = origin.offset by omega]
          exact (Cursor.leadsTo_self origin).contextAt
      rintro other (_ | ⟨_, member⟩) covers
      · rw [span, Span.covers_iff] at covers
        rw [span]
        exact here covers.1 (Nat.le_trans (Nat.le_of_lt forward) covers.2)
      · exact induction behind apart.2 carried.2 there other member covers

end Token

namespace Source

variable {source : Source} {tokens : List Token} {gap : Span}

theorem tokens_framed (scanned : source.tokens = .ok tokens) {origin : Cursor}
    (stands : origin.Stands source.chars)
    (border : Token.Border tokens origin.offset) {limit : Nat}
    (settled : ∀ token ∈ tokens, token.span.start < token.span.stop →
      Span.covers ⟨origin.offset, limit⟩ token.span →
      token.Settled source.chars) :
    ∀ token ∈ tokens, token.span.start < token.span.stop →
      Span.covers ⟨origin.offset, limit⟩ token.span → token.Framed origin := by
  have apart := border.apart scanned
  have carries := source.tokens_carry scanned
  obtain ⟨body, last, tokens_eq, tiling, _⟩ := source.tokens_tile scanned
  have listed : ∀ token ∈ body, token ∈ tokens := by
    rw [tokens_eq]
    exact fun _ => List.mem_append_left _
  have framed : ∀ token ∈ body, Span.covers ⟨origin.offset, limit⟩ token.span →
      ContextAt origin token.span.start .text → token.Framed origin := by
    intro token member covers reached
    exact (carries token (listed token member)).frames origin stands reached
      (settled token (listed token member) (tiling.within token member).2.1
        covers)
  have reached := tiling.contextAt_start
    (fun token member => apart token (listed token member))
    (fun token member covers reached =>
      (framed token member covers reached).stop)
    (fun first _ => by
      rw [show (0 : Nat) = origin.offset from (Nat.le_zero.mp first).symm]
      exact (Cursor.leadsTo_self origin).contextAt)
  intro token member wide covers
  rw [tokens_eq] at member
  rcases List.mem_append.mp member with inside | final
  · exact framed token inside covers (reached token inside covers)
  · rw [List.mem_singleton.mp final] at wide
    exact absurd wide (Nat.lt_irrefl _)

end Source

namespace Marker

section Places

variable (tokens : List Token) (marker : Marker)

def InValue : Prop :=
  ∃ token ∈ tokens, ∃ attr ∈ token.attributes, ∃ value ∈ attr.value,
    value.span.covers marker.span

def InText : Prop :=
  ∃ token ∈ tokens, token.isText ∧ token.span.covers marker.span

/-- The marker stands inside one value or one text, or holds nothing that could
begin or end either. -/
def Enclosed : Prop :=
  marker.InValue tokens ∨ marker.InText tokens ∨ Context.Inert marker.raw.toList

instance decidableInValue : Decidable (marker.InValue tokens) :=
  inferInstanceAs (Decidable
    (∃ token ∈ tokens, ∃ attr ∈ token.attributes, ∃ value ∈ attr.value,
    value.span.covers marker.span))

instance decidableInText : Decidable (marker.InText tokens) :=
  inferInstanceAs (Decidable
    (∃ token ∈ tokens, token.isText ∧ token.span.covers marker.span))

instance decidableEnclosed : Decidable (marker.Enclosed tokens) :=
  inferInstanceAs (Decidable
    (marker.InValue tokens ∨ marker.InText tokens ∨
      Context.Inert marker.raw.toList))

end Places

variable {source : Source} {origin : Cursor} {tokens : List Token}
  {marker : Marker}

section Framed

variable (stands : origin.Stands source.chars)
  (framed : ∀ token ∈ tokens,
    token.span.covers marker.span → token.Framed origin)
  (spelled : source.slice? marker.span = some marker.raw.toList)

include stands framed spelled

theorem contextAt_of_inValue
    (carries : ∀ token ∈ tokens, token.Carries source.chars)
    (inside : marker.InValue tokens) :
    ∃ around, Context.location around = .tag ∧
      ContextAt origin marker.span.start around ∧
      ContextAt origin marker.span.stop around := by
  obtain ⟨token, read, attr, listed, value, valued, covers⟩ := inside
  have within : token.span.covers value.span :=
    Span.covers_iff.mpr ((carries token read).within attr listed value valued)
  obtain ⟨around, located, whole⟩ :=
    (framed token read (Span.covers_trans within covers)).values attr listed
      value valued
  exact ⟨around, located, whole.contextAt stands covers spelled⟩

theorem contextAt_of_inText (inside : marker.InText tokens) :
    ContextAt origin marker.span.start .text ∧
    ContextAt origin marker.span.stop .text := by
  obtain ⟨token, read, isText, covers⟩ := inside
  exact ((framed token read covers).text isText).contextAt stands covers spelled

theorem Enclosed.steady (enclosed : marker.Enclosed tokens)
    (carries : ∀ token ∈ tokens, token.Carries source.chars) :
    ∀ around, ContextAt origin marker.span.start around →
      ContextAt origin marker.span.stop around := by
  intro around here
  rcases enclosed with inValue | inText | inert
  · obtain ⟨_, _, start, stop⟩ :=
      contextAt_of_inValue stands framed spelled carries inValue
    rwa [here.context_eq start]
  · obtain ⟨start, stop⟩ := contextAt_of_inText stands framed spelled inText
    rwa [here.context_eq start]
  · exact here.lasts stands spelled fun behind => here.proper.lasts behind inert

end Framed

/-- The markers of a gap between tokens are located where the tokens show them,
if the tokens in the gap are settled and the markers enclosed. -/
theorem marked_locates {gap : Span} {run : MarkedText}
    (scanned : source.tokens = .ok tokens)
    (start : Token.Border tokens gap.start)
    (stop : Token.Border tokens gap.stop)
    (settled : ∀ token ∈ tokens, token.span.start < token.span.stop →
      gap.covers token.span → token.Settled source.chars)
    (marked : source.marked gap .text = .ok run)
    (enclosed : ∀ marker ∈ run.markers, marker.Enclosed tokens) :
    ∀ marker ∈ run.markers, (marker.InValue tokens → marker.location = .tag) ∧
      (marker.InText tokens → marker.location = .text) := by
  obtain ⟨text, sliced, read⟩ := Source.marked_ok marked
  obtain ⟨here, placed⟩ := Source.marked_spells marked
  have spelled := MarkedText.spelled_of_placed here placed
  have carries := source.tokens_carry scanned
  obtain ⟨before, after, whole, size, _⟩ := slice?_eq_some.mp sliced
  let origin : Cursor := Cursor.followedBy ⟨gap.start, text⟩ after
  have stands : origin.Stands source.chars := ⟨before, whole, size⟩
  have inGap := source.tokens_framed scanned stands start settled
  have framed : ∀ marker ∈ run.markers, ∀ token ∈ tokens,
      token.span.covers marker.span →
      token.Framed origin := by
    intro marker member token listed covers
    obtain ⟨behind, wide, ahead, _⟩ := spelled marker member
    rw [Span.covers_iff] at covers
    have first := start.apart scanned token listed
    have last := stop.apart scanned token listed
    have within : gap.covers token.span :=
      Span.covers_iff.mpr ⟨by omega, by omega⟩
    exact inGap token listed (by omega) within
  have located := scan_locates read (Cursor.leadsTo_self origin)
      fun marker member =>
        (enclosed marker member).steady stands (framed marker member)
          (spelled marker member).2.2.2
          carries
  intro marker member
  obtain ⟨around, reached, location⟩ := located marker member
  constructor
  · intro inside
    obtain ⟨other, inTag, begins, _⟩ :=
      contextAt_of_inValue stands (framed marker member)
      (spelled marker member).2.2.2 carries inside
    rw [← location, reached.context_eq begins, inTag]
  · intro inside
    obtain ⟨begins, _⟩ := contextAt_of_inText stands (framed marker member)
      (spelled marker member).2.2.2 inside
    rw [← location, reached.context_eq begins]
    rfl

end Marker

namespace Construct

/-- The token stands in the construct's own markup: inside the construct and in
none of its children. -/
def Owns (construct : Construct) (token : Token) : Prop :=
  construct.span.covers token.span ∧ ∀ child ∈ construct.children,
    ¬ child.span.covers token.span

variable {source : Source} {document : Document} {root : Element}
  {known : List String} {tree : Construct} {events : List Event}
  {tokens : List Token}

theorem run_locates_markers (parsed : Document.parse source = .ok document)
    (scanned : source.tokens = .ok tokens)
    (inDocument : root ∈ document.descendants.map Prod.snd)
    (built : build source root known = .ok (tree, events))
    {construct : Construct} (walked : construct ∈ tree.walk)
    (settled : ∀ token ∈ tokens,
      construct.Owns token → token.Settled source.chars)
    {run : MarkedText} (listed : run ∈ construct.runs)
    (enclosed : ∀ marker ∈ run.markers, marker.Enclosed tokens) :
    ∀ marker ∈ run.markers, (marker.InValue tokens → marker.location = .tag) ∧
      (marker.InText tokens → marker.location = .text) := by
  obtain ⟨element, below, made⟩ := (build_ok built).walk construct walked
  obtain ⟨gap, inGaps, marked⟩ := made.runs_marked run listed
  have borders := walk_borders parsed scanned inDocument built
  obtain ⟨first, last⟩ := borders construct walked
  obtain ⟨start, stop⟩ := gaps_ends first last
    (fun child inside => borders child (Walk.mem_list_of_below walked inside))
      gap inGaps
  have encloses := BuiltFrom.encloses_of_document
    ⟨source, known, declaredName? root⟩ parsed
    inDocument below made
  obtain ⟨_, _, _, _, _, within⟩ := encloses.within
  obtain ⟨behind, ahead, apart⟩ := gaps_apart
    (fun child inside =>
      ⟨(Span.covers_iff.mp (encloses.strict child inside).1).1,
      (within child inside).2.1,
      (Span.covers_iff.mp (encloses.strict child inside).1).2⟩)
    encloses.apart gap inGaps
  refine Marker.marked_locates scanned start stop ?_ marked enclosed
  intro token member wide covers
  rw [Span.covers_iff] at covers
  refine settled token member ⟨Span.covers_iff.mpr ⟨by omega, by omega⟩, ?_⟩
  intro child inside around
  rw [Span.covers_iff] at around
  rcases apart child inside with before | after
  · omega
  · omega

/-- The location of a marker agrees with the tokens where those of its
construct's own markup are settled and the construct's own markers are enclosed:
a marker in the value of an attribute is located in a tag, and one in a text is
located in text. So what is piped into a value has its quotation marks escaped,
and what is piped into text is written as it is. -/
theorem build_locates_markers (parsed : Document.parse source = .ok document)
    (scanned : source.tokens = .ok tokens)
    (inDocument : root ∈ document.descendants.map Prod.snd)
    (built : build source root known = .ok (tree, events))
    {construct : Construct} (walked : construct ∈ tree.walk)
    (settled : ∀ token ∈ tokens,
      construct.Owns token → token.Settled source.chars)
    (enclosed : ∀ marker ∈ construct.markers, marker.Enclosed tokens) :
    ∀ marker ∈ construct.markers,
      (marker.InValue tokens → marker.location = .tag ∧
        ∀ rune, marker = .rune rune → rune.kind = .pipe →
          Segment.expression marker = "gtmlRawAttr(" ++ rune.value ++ ")") ∧
      (marker.InText tokens → marker.location = .text ∧
        ∀ rune, marker = .rune rune → rune.kind = .pipe →
          Segment.expression marker = "gtmlRaw(" ++ rune.value ++ ")") := by
  intro marker member
  obtain ⟨run, listed, inRun⟩ := List.mem_flatMap.mp member
  obtain ⟨inValue, inText⟩ :=
    run_locates_markers parsed scanned inDocument built walked settled
    listed (fun other inside => enclosed other
      (List.mem_flatMap.mpr ⟨run, listed, inside⟩))
    marker inRun
  constructor
  · intro inside
    refine ⟨inValue inside, ?_⟩
    rintro rune rfl piped
    rw [Segment.expression, piped, show rune.location = _ from inValue inside]
  · intro inside
    refine ⟨inText inside, ?_⟩
    rintro rune rfl piped
    rw [Segment.expression, piped, show rune.location = _ from inText inside]

theorem ofText_ok {text : String}
    (built : ofText text known = .ok (tree, events)) :
    ∃ document root, Document.parse (Source.ofText text) = .ok document ∧
      root ∈ document.descendants.map Prod.snd ∧
      build (Source.ofText text) root known = .ok (tree, events) := by
  unfold ofText at built
  obtain ⟨document, parsed, built⟩ := Except.bind_eq_ok.mp built
  split at built
  · cases built
  · rename_i root rest roots
    refine ⟨document, root, parsed, ?_, built⟩
    rw [Document.descendants, roots, Element.walk_cons]
    exact List.mem_cons_self ..

/-- A bracket and the other quotation mark in quoted values, a marker across the
parts of a tag, a comment that holds a tag, comparisons in text, and a child
whose tag is not settled. -/
theorem build_locates_markers_quoted :
    let text :=
      "<p _component=\"A\" a=\"> $pipe(v)\" b='\"' c=\x7b\x7b x \x7d\x7d>" ++
        "<!-- <b> -->$pipe(w) < \x7b\x7b \"y\" < z \x7d\x7d" ++
        "<i _if=\"q\" t=it's></i>$pipe(u)</p>"
    let source := Source.ofText text
    ∃ document root tokens tree events, Document.parse source = .ok document ∧
      source.tokens = .ok tokens ∧ root ∈ document.descendants.map Prod.snd ∧
      build source root [] = .ok (tree, events) ∧
      tree.markers.map Segment.expression =
        ["gtmlRawAttr(v)", "gtmlEscape(x)", "gtmlRaw(w)",
          "gtmlEscape(\"y\" < z)", "gtmlRaw(u)"] ∧
      ∀ marker ∈ tree.markers,
        (marker.InValue tokens → marker.location = .tag ∧
          ∀ rune, marker = .rune rune → rune.kind = .pipe →
            Segment.expression marker = "gtmlRawAttr(" ++ rune.value ++ ")") ∧
        (marker.InText tokens → marker.location = .text ∧
          ∀ rune, marker = .rune rune → rune.kind = .pipe →
            Segment.expression marker = "gtmlRaw(" ++ rune.value ++ ")") := by
  intro text source
  let markers : List Marker :=
    [.rune ⟨.pipe, "v", "$pipe(v)", ⟨23, 31⟩, .tag⟩,
      .interpolation ⟨"x", "\x7b\x7b x \x7d\x7d", ⟨41, 48⟩, .tag⟩,
      .rune ⟨.pipe, "w", "$pipe(w)", ⟨61, 69⟩, .text⟩,
      .interpolation ⟨"\"y\" < z", "\x7b\x7b \"y\" < z \x7d\x7d", ⟨72, 85⟩,
        .text⟩,
      .rune ⟨.pipe, "u", "$pipe(u)", ⟨107, 115⟩, .text⟩]
  let inner : Span := ⟨85, 107⟩
  have shape : (ofText text []).map (fun result =>
      (result.1.markers, result.1.children.map Construct.span)) = .ok (markers,
          [inner]) := by
    decide +kernel
  have quiet : source.tokens.map (fun tokens =>
      decide
        ((∀ token ∈ tokens, inner.covers token.span ∨
          token.Settled source.chars) ∧
        ∀ marker ∈ markers, marker.Enclosed tokens)) = .ok true := by
    decide +kernel
  obtain ⟨⟨tree, events⟩, built, same⟩ := Except.map_eq_ok.mp shape
  obtain ⟨found, nested⟩ := Prod.mk.inj same
  obtain ⟨document, root, parsed, member, built⟩ := ofText_ok built
  obtain ⟨tokens, scanned, accepted⟩ := Except.map_eq_ok.mp quiet
  obtain ⟨beside, enclosed⟩ := of_decide_eq_true accepted
  rw [← found] at enclosed
  have settled : ∀ token ∈ tokens,
      tree.Owns token → token.Settled source.chars := by
    have listed : inner ∈ tree.children.map Construct.span := by
      rw [nested]
      exact List.mem_singleton.mpr rfl
    obtain ⟨child, inside, span⟩ := List.mem_map.mp listed
    rw [← span] at beside
    exact fun token read owned => (beside token read).resolve_left
      (owned.2 child inside)
  refine ⟨document, root, tokens, tree, events, parsed, scanned, member, built,
    ?_,
    build_locates_markers parsed scanned member built (mem_walk_self tree)
      settled enclosed⟩
  rw [show tree.markers = markers from found]
  decide

/-- A quotation mark in a value without quotes, and an apostrophe in another
one: what is piped into a value is written as if into text, and what is piped
into text as if into a tag. -/
theorem build_mislocates_markers :
    let text :=
      "<p _component=\"A\" a=x\" b=\">\" c=\"$pipe(v)\">" ++
        "<i t=it's>$pipe(w)</i></p>"
    let source := Source.ofText text
    ∃ document root tokens tree events first second,
      Document.parse source = .ok document ∧
      source.tokens = .ok tokens ∧ root ∈ document.descendants.map Prod.snd ∧
      build source root [] = .ok (tree, events) ∧ tree.kind.target? = none ∧
      tree.markers = [first, second] ∧
      first.InValue tokens ∧ first.location = .text ∧
      Segment.expression first = "gtmlRaw(v)" ∧
      second.InText tokens ∧ second.location = .tag ∧
      Segment.expression second = "gtmlRawAttr(w)" := by
  intro text source
  let first : Marker := .rune ⟨.pipe, "v", "$pipe(v)", ⟨32, 40⟩, .text⟩
  let second : Marker := .rune ⟨.pipe, "w", "$pipe(w)", ⟨52, 60⟩, .tag⟩
  have shape : (ofText text []).map
        (fun result => (result.1.kind.target?, result.1.markers)) =
      .ok (none, [first, second]) := by
    decide +kernel
  have places : source.tokens.map (fun tokens =>
      decide (first.InValue tokens ∧ second.InText tokens)) = .ok true := by
    decide +kernel
  obtain ⟨⟨tree, events⟩, built, found⟩ := Except.map_eq_ok.mp shape
  obtain ⟨plain, markers⟩ := Prod.mk.inj found
  obtain ⟨document, root, parsed, member, built⟩ := ofText_ok built
  obtain ⟨tokens, scanned, accepted⟩ := Except.map_eq_ok.mp places
  obtain ⟨inValue, inText⟩ := of_decide_eq_true accepted
  exact ⟨document, root, tokens, tree, events, first, second, parsed, scanned,
    member, built, plain,
    markers, inValue, rfl, rfl, inText, rfl, rfl⟩

end Construct

end Stencil
