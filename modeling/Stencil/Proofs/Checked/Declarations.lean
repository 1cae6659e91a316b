import Stencil.Proofs.Checked.Reading
import Stencil.Proofs.Series

namespace Stencil.Checked

open Text

/-! Declarations written with every slice and every difference checked. -/

section Writers

def series (html : List Char) (base place : Nat) :
    List Cut → Option (List Segment)
  | [] => do
      let rest ← slice? html place (byteLength html)
      return Segment.ofText rest
  | cut :: cuts => do
      let start ← minus? cut.span.start base
      let stop ← minus? cut.span.stop base
      let before ← slice? html place start
      let more ← series html base stop cuts
      return Segment.ofText before ++ .code cut.expression :: more

def inOrder (cuts : List Cut) : List Cut :=
  cuts.mergeSort fun left right => left.span.start ≤ right.span.start

def segments (construct : Construct) (calls : List String) :
    Option (List Segment) :=
  series construct.html.toList construct.span.start 0
    (inOrder (Cut.ofCalls construct.children calls ++
      construct.markers.map Cut.ofMarker))

def content (signatures : Signatures) (construct : Construct) (builder : String)
    (inner : List Declaration) : Reading GenerationError Declaration.Content :=
  match construct.kind with
  | .placeholder target arguments => do
      let slots := Declaration.slots construct.children inner
      let linked ← .settled (Call.link signatures target construct.html
        arguments
        (slots.map fun (name, slot) => ⟨name, slot.call⟩))
      return ⟨[], Declaration.callBody linked slots, linked.events⟩
  | _ => do
      let segments ← segments construct (inner.map Declaration.call)
      return ⟨segments, Declaration.body builder inner segments, []⟩

/-- The frame of a construct that writes its markup. A placeholder must not get
here. -/
def writtenFrame (signatures : Signatures) (kind : Construct.Kind)
    (name html : String) :
    Reading GenerationError Declaration.Frame :=
  match kind with
  | .placeholder _ _ => liftM (none : Option Declaration.Frame)
  | _ => .settled (Declaration.frame signatures kind name html)

def frame (signatures : Signatures) (kind : Construct.Kind)
    (name html : String) :
    Reading GenerationError Declaration.Frame :=
  match kind with
  | .placeholder _ _ => return ⟨Declaration.closure name, name ++ "()"⟩
  | _ => writtenFrame signatures kind name html

mutual
def ofConstruct (signatures : Signatures) :
    Construct → Reading GenerationError Declaration
  | ⟨kind, id, span, html, runs, children⟩ => do
      let inner ← ofConstructs signatures children
      let name := Declaration.nameOf kind id
      let builder := Declaration.builderOf kind id
      let content ← content signatures ⟨kind, id, span, html, runs, children⟩
        builder inner
      let frame ← frame signatures kind name html
      let lines := (frame.header ++ " \x7b") :: content.body ++ ["\x7d"]
      return ⟨name, builder, content.segments, frame.call, lines,
        content.events, inner⟩

def ofConstructs (signatures : Signatures) :
    List Construct → Reading GenerationError (List Declaration)
  | [] => return []
  | construct :: rest => do
      let first ← ofConstruct signatures construct
      let more ← ofConstructs signatures rest
      return first :: more
end

end Writers

section Agreement

theorem series_eq {source : Source} {html : List Char} {base start stop : Nat}
    {segments : List Segment} {cuts : List Cut}
    (whole : source.slice? ⟨base, stop⟩ = some html)
    (woven : Woven source start segments cuts stop) {first : Nat}
    {lead : List Char} (here : source.slice? ⟨first, start⟩ = some lead)
    (inside : base ≤ first)
    (next : lead ≠ [] → ∀ segment ∈ segments.head?, segment.isCode) :
    series html base (first - base) cuts =
      some (Segment.ofText lead ++ segments) := by
  -- The text up to a cut is sliced in one go when the cut is met, so the
  -- induction carries the lead that has been passed but not written.
  induction woven generalizing first lead with
  | nil offset =>
      have size : byteLength html = offset - base := by
        obtain ⟨_, _, _, _, stop_eq⟩ := slice?_eq_some.mp whole
        simp only at stop_eq
        omega
      have rest := slice?_within whole here inside (Nat.le_refl _)
      rw [series, size, rest]
      simp
  | @markup start middle stop text segments cuts nonempty spelled code behind
    induction =>
      have empty : lead = [] := by
        by_contra some
        exact absurd (next some _ rfl) (by simp [Segment.isCode])
      subst empty
      obtain ⟨_, _, _, _, same⟩ := slice?_eq_some.mp here
      obtain rfl : start = first := same
      rw [induction whole spelled inside fun _ => code]
      cases text with
      | nil => exact absurd rfl nonempty
      | cons char rest => rfl
  | @code span stop expression text segments cuts nonempty spelled behind
    induction =>
      have before : first ≤ span.start := slice?_le here
      have after : span.start ≤ span.stop := slice?_le spelled
      have lead_eq := slice?_within whole here inside
        (Nat.le_trans after behind.start_le)
      have behind := (isCut_of_slice? spelled).2.slice?_self
      have later : base ≤ span.stop := by omega
      have more := induction whole behind later fun some => absurd rfl some
      have start : minus? span.start base = some (span.start - base) :=
        if_pos (by omega)
      have stop : minus? span.stop base = some (span.stop - base) :=
        if_pos (by omega)
      simp [series, start, stop, lead_eq, more, Segment.ofText]

theorem inOrder_eq {cuts woven : List Cut} (same : woven.Perm cuts)
    (apart : woven.Pairwise fun left right => left.span.stop ≤ right.span.start)
    (proper : ∀ cut ∈ woven, cut.span.start < cut.span.stop) :
    inOrder cuts = woven := by
  have sorted : (inOrder cuts).Pairwise fun left right =>
      left.span.start ≤ right.span.start := by
    have pairwise : (inOrder cuts).Pairwise fun left right =>
        decide (left.span.start ≤ right.span.start) = true :=
      List.pairwise_mergeSort (by simp; omega) (by simp; omega) cuts
    simpa using pairwise
  have ahead : woven.Pairwise fun left right =>
      left.span.start ≤ right.span.start := by
    apply List.Pairwise.imp_of_mem _ apart
    intro left right leftMember _ before
    exact Nat.le_trans (Nat.le_of_lt (proper left leftMember)) before
  refine List.Perm.eq_of_pairwise ?_ sorted ahead
    ((List.mergeSort_perm _ _).trans same.symm)
  intro left right leftMember rightMember forward backward
  have member : left ∈ woven :=
    same.symm.subset (List.mem_mergeSort.mp leftMember)
  have leftProper := proper left member
  have rightProper := proper right rightMember
  rcases apart.eq_or_rel member rightMember with equal | before | behind
  · exact equal
  · omega
  · omega

def Weaves (construct : Construct) : Prop :=
  ∃ source : Source, source.slice? construct.span = some construct.html.toList ∧
    ∀ calls : List String, construct.kind.target? = none →
      calls.length = construct.children.length →
      Woven source construct.span.start (Segment.weave construct.runs calls)
        (Cut.weave construct.runs (Cut.ofCalls construct.children calls))
          construct.span.stop

theorem segments_eq {construct : Construct} (weaves : Weaves construct)
    {calls : List String} (plain : construct.kind.target? = none)
    (called : calls.length = construct.children.length) :
    segments construct calls = some (Segment.weave construct.runs calls) := by
  obtain ⟨source, html, weave⟩ := weaves
  have woven := weave calls plain called
  have ordered : inOrder (Cut.ofCalls construct.children calls ++
      construct.markers.map Cut.ofMarker) =
        Cut.weave construct.runs (Cut.ofCalls construct.children calls) :=
    inOrder_eq (Cut.weave_perm _ _) woven.pairwise
      fun cut member => (woven.covers cut member).2.1
  have written := series_eq html woven (isCut_of_slice? html).1.slice?_self
    (Nat.le_refl _)
    fun some => absurd rfl some
  rw [Nat.sub_self] at written
  rw [segments, ordered]
  exact written

theorem content_eq {construct : Construct} (weaves : Weaves construct)
    {inner : List Declaration}
    (called : inner.length = construct.children.length)
    (signatures : Signatures) (builder : String) :
    content signatures construct builder inner =
      .settled (Declaration.content signatures construct builder inner) := by
  unfold content Declaration.content
  cases kind : construct.kind with
  | placeholder target arguments =>
      simp only
      cases Call.link signatures target construct.html arguments
        ((Declaration.slots construct.children inner).map fun (name, slot) =>
          ⟨name, slot.call⟩) <;> rfl
  | component | loop | conditional | alternative | slot =>
      have plain : construct.kind.target? = none := by
        rw [kind]
        rfl
      have length : (inner.map Declaration.call).length =
          construct.children.length := by
        rw [List.length_map, called]
      simp only [segments_eq weaves plain length]
      rfl

theorem frame_eq (signatures : Signatures) (kind : Construct.Kind)
    (name html : String) :
    frame signatures kind name html =
      .settled (Declaration.frame signatures kind name html) := by
  cases kind <;> rfl

mutual
theorem ofConstruct_eq (signatures : Signatures) (construct : Construct)
    (weaves : ∀ inner ∈ construct.walk, Weaves inner) :
    ofConstruct signatures construct =
      .settled (Declaration.ofConstruct signatures construct) := by
  have here := weaves construct (Construct.mem_walk_self construct)
  obtain ⟨kind, id, span, html, runs, children⟩ := construct
  rw [ofConstruct, Declaration.ofConstruct]
  apply Reading.bind_settled
      (ofConstructs_eq signatures children fun child inside inner member =>
        weaves inner (Construct.mem_walk_of_child inside member))
  intro inner declared
  apply Reading.bind_settled
    (content_eq here (Declaration.length_of_ofConstructs declared) signatures _)
  intro content _
  apply Reading.bind_settled (frame_eq signatures kind _ html)
  intro frame _
  rfl

theorem ofConstructs_eq (signatures : Signatures) (constructs : List Construct)
    (weaves : ∀ construct ∈ constructs, ∀ inner ∈ construct.walk,
      Weaves inner) :
    ofConstructs signatures constructs =
      .settled (Declaration.ofConstructs signatures constructs) := by
  cases constructs with
  | nil => rfl
  | cons construct rest =>
      rw [ofConstructs, Declaration.ofConstructs]
      apply Reading.bind_settled
        (ofConstruct_eq signatures construct
          (weaves construct (List.mem_cons_self ..)))
      intro first _
      apply Reading.bind_settled (ofConstructs_eq signatures rest
        fun other member => weaves other (List.mem_cons_of_mem _ member))
      intro more _
      rfl
end

end Agreement

end Stencil.Checked
