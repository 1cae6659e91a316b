import Mathlib.Data.List.Chain
import Stencil.Declaration
import Stencil.Proofs.Components
import Stencil.Proofs.Contraction
import Stencil.Proofs.Markers

namespace Stencil

open Text

/-! What a construct writes is its own markup, cut where its children and its
markers stand. -/

/-- A place of a source and the expression that is written instead of it. -/
structure Cut where
  span : Span
  expression : String
  deriving DecidableEq, Repr

namespace Cut

def ofMarker (marker : Marker) : Cut :=
  ⟨marker.span, Segment.expression marker⟩

def ofCalls (children : List Construct) (calls : List String) : List Cut :=
  children.zipWith (fun child call => ⟨child.span, call⟩) calls

def weave : List MarkedText → List Cut → List Cut
  | run :: runs, cut :: cuts =>
      run.markers.map ofMarker ++ cut :: weave runs cuts
  | runs, [] => (runs.flatMap MarkedText.markers).map ofMarker
  | [], cuts => cuts

theorem weave_perm (runs : List MarkedText) (cuts : List Cut) :
    (weave runs cuts).Perm
      (cuts ++ (runs.flatMap MarkedText.markers).map ofMarker) := by
  fun_induction weave runs cuts with
  | case1 run runs cut cuts induction =>
      rw [List.flatMap_cons, List.map_append, List.cons_append]
      refine List.perm_middle.trans (.cons cut ?_)
      refine (induction.append_left _).trans ?_
      rw [← List.append_assoc, ← List.append_assoc]
      exact List.perm_append_comm.append_right _
  | case2 runs => exact List.Perm.refl _
  | case3 cuts => simp

end Cut

namespace Segment

def isCode : Segment → Bool
  | .markup _ => false
  | .code _ => true

def expression? : Segment → Option String
  | .markup _ => none
  | .code expression => some expression

/-- The markup again: each expression gives way to the text under its cut. -/
def restore (source : Source) : List Segment → List Cut → Option (List Char)
  | [], [] => some []
  | .markup text :: rest, cuts => do
      let more ← restore source rest cuts
      return text.toList ++ more
  | .code _ :: rest, cut :: cuts => do
      let text ← source.slice? cut.span
      let more ← restore source rest cuts
      return text ++ more
  | _, _ => none

end Segment

/-- Segments that stand for the text between two offsets: pieces of markup that
have something between them, and expressions for the cuts. -/
inductive Woven (source : Source) : Nat → List Segment → List Cut → Nat → Prop
  | nil (offset : Nat) : Woven source offset [] [] offset
  | markup {start middle stop : Nat} {text : List Char}
      {segments : List Segment} {cuts : List Cut}
      (nonempty : text ≠ []) (here : source.slice? ⟨start, middle⟩ = some text)
      (next : ∀ segment ∈ segments.head?, segment.isCode)
      (behind : Woven source middle segments cuts stop) :
      Woven source start (.markup (String.ofList text) :: segments) cuts stop
  | code {span : Span} {stop : Nat} {expression : String} {text : List Char}
      {segments : List Segment} {cuts : List Cut}
      (nonempty : span.start < span.stop)
        (here : source.slice? span = some text)
      (behind : Woven source span.stop segments cuts stop) :
      Woven source span.start (.code expression :: segments)
        (⟨span, expression⟩ :: cuts) stop

namespace Woven

variable {source : Source} {start middle stop : Nat} {segments : List Segment}
  {cuts : List Cut}

theorem ofText {chars : List Char}
    (here : source.slice? ⟨start, middle⟩ = some chars)
    (next : ∀ segment ∈ segments.head?, segment.isCode)
    (behind : Woven source middle segments cuts stop) :
    Woven source start (Segment.ofText chars ++ segments) cuts stop := by
  cases chars with
  | nil =>
      obtain ⟨_, _, _, _, same⟩ := slice?_eq_some.mp here
      obtain rfl : middle = start := same
      exact behind
  | cons char rest => exact .markup (List.cons_ne_nil _ _) here next behind

theorem ofMarked {marked : MarkedText}
    (here : source.slice? ⟨start, middle⟩ = some marked.chars)
    (placed : MarkedText.Placed (start + byteLength marked.lead) marked.tail)
    (next : ∀ segment ∈ segments.head?, segment.isCode)
    (behind : Woven source middle segments cuts stop) :
    Woven source start (Segment.ofMarked marked ++ segments)
      (marked.markers.map Cut.ofMarker ++ cuts) stop := by
  obtain ⟨lead, tail⟩ := marked
  induction tail generalizing lead start with
  | nil =>
      simp only [MarkedText.chars, List.flatMap_nil, List.append_nil] at here
      simpa [Segment.ofMarked, MarkedText.markers] using ofText here next behind
  | cons entry tail induction =>
      obtain ⟨marker, text⟩ := entry
      obtain ⟨nonempty, span, placed⟩ := placed
      simp only [MarkedText.chars, List.flatMap_cons, List.append_assoc] at here
      have before : source.slice? ⟨start, start + byteLength lead⟩ =
          some lead :=
        (slice?_split here).1
      obtain ⟨raw, after⟩ := slice?_split (slice?_split here).2
      have behind : Woven source marker.span.stop
          (Segment.ofMarked ⟨text, tail⟩ ++ segments)
          ((MarkedText.markers ⟨text, tail⟩).map Cut.ofMarker ++ cuts)
            stop := by
        rw [span] at placed ⊢
        exact induction text after placed
      have coded : Woven source marker.span.start
          (.code (Segment.expression marker) ::
            (Segment.ofMarked ⟨text, tail⟩ ++ segments))
          (Cut.ofMarker marker ::
            ((MarkedText.markers ⟨text, tail⟩).map Cut.ofMarker ++ cuts))
          stop := by
        have wide : marker.span.start < marker.span.stop := by
          rw [span]
          exact Nat.lt_add_of_pos_right (byteLength_pos nonempty)
        have spelled : source.slice? marker.span = some marker.raw.toList := by
          rw [span]
          exact raw
        exact .code wide spelled behind
      rw [span] at coded
      have whole := ofText before (by simp [Segment.isCode]) coded
      simpa [Segment.ofMarked, MarkedText.markers] using whole

theorem weave {children : List Construct} {runs : List MarkedText}
    {calls : List String}
    (read : Construct.runsBetween source start stop children = .ok runs)
    (called : calls.length = children.length)
    (spelled : ∀ child ∈ children, child.span.start < child.span.stop ∧
      ∃ text, source.slice? child.span = some text) :
    Woven source start (Segment.weave runs calls)
      (Cut.weave runs (Cut.ofCalls children calls)) stop := by
  induction children generalizing start runs calls with
  | nil =>
      rw [Construct.runsBetween] at read
      obtain ⟨run, run_eq, read⟩ := Except.bind_eq_ok.mp read
      rw [Except.pure_eq_ok] at read
      subst read
      obtain rfl := List.eq_nil_of_length_eq_zero called
      obtain ⟨here, placed⟩ := Source.marked_spells run_eq
      have whole := ofMarked here placed (by simp) (.nil stop)
      simpa [Segment.weave, Cut.weave, Cut.ofCalls] using whole
  | cons child rest induction =>
      rw [Construct.runsBetween] at read
      obtain ⟨run, run_eq, read⟩ := Except.bind_eq_ok.mp read
      obtain ⟨more, more_eq, read⟩ := Except.bind_eq_ok.mp read
      rw [Except.pure_eq_ok] at read
      subst read
      obtain ⟨call, others, rfl⟩ := List.exists_cons_of_length_eq_add_one called
      obtain ⟨wide, text, inside⟩ := spelled child (List.mem_cons_self ..)
      have behind := induction more_eq (Nat.succ.inj called)
        fun other member => spelled other (List.mem_cons_of_mem _ member)
      have coded : Woven source child.span.start
          (.code call :: Segment.weave more others)
          (⟨child.span, call⟩ :: Cut.weave more (Cut.ofCalls rest others))
            stop :=
        .code wide inside behind
      obtain ⟨here, placed⟩ := Source.marked_spells run_eq
      exact ofMarked here placed (by simp [Segment.isCode]) coded

theorem start_le (woven : Woven source start segments cuts stop) :
    start ≤ stop := by
  induction woven with
  | nil => exact Nat.le_refl _
  | markup _ here _ _ induction => exact Nat.le_trans (slice?_le here) induction
  | code _ here _ induction => exact Nat.le_trans (slice?_le here) induction

theorem covers (woven : Woven source start segments cuts stop) :
    ∀ cut ∈ cuts, start ≤ cut.span.start ∧ cut.span.start < cut.span.stop ∧
      cut.span.stop ≤ stop := by
  induction woven with
  | nil => simp
  | markup _ here _ _ induction =>
      intro cut member
      obtain ⟨after, rest⟩ := induction cut member
      exact ⟨Nat.le_trans (slice?_le here) after, rest⟩
  | code nonempty here behind induction =>
      rintro cut (_ | ⟨_, member⟩)
      · exact ⟨Nat.le_refl _, nonempty, behind.start_le⟩
      · obtain ⟨after, rest⟩ := induction cut member
        exact ⟨Nat.le_trans (slice?_le here) after, rest⟩

theorem pairwise (woven : Woven source start segments cuts stop) :
    cuts.Pairwise fun left right => left.span.stop ≤ right.span.start := by
  induction woven with
  | nil => exact .nil
  | markup _ _ _ _ induction => exact induction
  | code _ _ behind induction =>
      exact .cons (fun cut member => (behind.covers cut member).1) induction

theorem expressions (woven : Woven source start segments cuts stop) :
    segments.filterMap Segment.expression? = cuts.map Cut.expression := by
  induction woven with
  | nil => rfl
  | markup _ _ _ _ induction => exact induction
  | code _ _ _ induction => exact congrArg (List.cons _) induction

theorem no_empty_markup (woven : Woven source start segments cuts stop) :
    .markup "" ∉ segments := by
  induction woven with
  | nil => exact List.not_mem_nil
  | markup nonempty _ _ _ induction =>
      intro member
      rcases List.mem_cons.mp member with here | later
      · have spelled := congrArg String.toList (Segment.markup.inj here)
        exact nonempty (by simpa using spelled.symm)
      · exact induction later
  | code _ _ _ induction =>
      intro member
      rcases List.mem_cons.mp member with here | later
      · cases here
      · exact induction later

theorem alternates (woven : Woven source start segments cuts stop) :
    segments.IsChain fun left right => left.isCode ∨ right.isCode := by
  induction woven with
  | nil => exact .nil
  | markup _ _ next _ induction =>
      exact induction.cons fun segment head => .inr (next segment head)
  | code _ _ _ induction => exact induction.cons fun segment _ => .inl rfl

theorem restores (woven : Woven source start segments cuts stop)
    (cut : IsCut source.chars start) :
    ∃ text, source.slice? ⟨start, stop⟩ = some text ∧
      Segment.restore source segments cuts = some text := by
  induction woven with
  | nil offset => exact ⟨[], cut.slice?_self, rfl⟩
  | markup _ here _ _ induction =>
      obtain ⟨more, spelled, restored⟩ := induction (isCut_of_slice? here).2
      exact ⟨_, slice?_append here spelled, by simp [Segment.restore, restored]⟩
  | code _ here _ induction =>
      obtain ⟨more, spelled, restored⟩ := induction (isCut_of_slice? here).2
      exact ⟨_, slice?_append here spelled,
        by simp [Segment.restore, restored, here]⟩

end Woven

theorem Declaration.forall₂_of_ofConstructs {signatures : Signatures}
    {constructs : List Construct} {declarations : List Declaration}
    (declared : Declaration.ofConstructs signatures constructs =
      .ok declarations) :
    List.Forall₂ (fun construct declaration =>
      Declaration.ofConstruct signatures construct =
        .ok declaration) constructs declarations := by
  induction constructs generalizing declarations with
  | nil =>
      cases declared
      exact .nil
  | cons construct rest induction =>
      rw [Declaration.ofConstructs] at declared
      obtain ⟨first, here, declared⟩ := Except.bind_eq_ok.mp declared
      obtain ⟨more, others, declared⟩ := Except.bind_eq_ok.mp declared
      rw [Except.pure_eq_ok] at declared
      subst declared
      exact .cons here (induction others)

theorem Declaration.length_of_ofConstructs {signatures : Signatures}
    {constructs : List Construct} {declarations : List Declaration}
    (declared : Declaration.ofConstructs signatures constructs =
      .ok declarations) :
    declarations.length = constructs.length :=
  (forall₂_of_ofConstructs declared).length_eq.symm

namespace Construct

variable {construct : Construct}

/-- What a construct that is no placeholder writes, given the calls of its
children, is woven from its own markup. -/
theorem BuiltFrom.woven {scope : Scope} {element : Element}
    {calls : List String} (built : BuiltFrom scope element construct)
    (plain : construct.kind.target? = none)
    (enclosed : ∀ child ∈ construct.children,
      child.span.start < child.span.stop)
    (called : calls.length = construct.children.length) :
    Woven scope.source construct.span.start (Segment.weave construct.runs calls)
      (Cut.weave construct.runs (Cut.ofCalls construct.children calls))
        construct.span.stop := by
  obtain ⟨_, _, inner, _, _, _, run, assembled⟩ := built.exists_assembled
  have builds := ofNodes_builds element.children run
  have same : construct.children = inner := by
    rw [assembled.children_eq, Kind.kept_of_plain plain]
  have runs := assembled.runs plain
  rw [← assembled.span_eq, ← same] at runs
  refine Woven.weave runs called ?_
  intro child member
  refine ⟨enclosed child member, ?_⟩
  rw [same] at member
  obtain ⟨below, _, made⟩ := builds.exists_of_mem_right member
  exact ⟨_, made.html⟩

/-- The segments are the construct's markup with every child and every marker of
its own, in source order, replaced by its expression. -/
structure Faithful (source : Source) (construct : Construct)
    (calls : List String) (segments : List Segment) (cuts : List Cut) :
    Prop where
  html : source.slice? construct.span = some construct.html.toList
  called : calls.length = construct.children.length
  cuts_perm : cuts.Perm
    (Cut.ofCalls construct.children calls ++ construct.markers.map Cut.ofMarker)
  ordered : cuts.Pairwise fun left right => left.span.stop ≤ right.span.start
  inside : ∀ cut ∈ cuts, construct.span.start ≤ cut.span.start ∧
    cut.span.start < cut.span.stop ∧ cut.span.stop ≤ construct.span.stop
  values : segments.filterMap Segment.expression? = cuts.map Cut.expression
  no_empty_markup : .markup "" ∉ segments
  alternates : segments.IsChain fun left right => left.isCode ∨ right.isCode
  restores : Segment.restore source segments cuts = some construct.html.toList

theorem BuiltFrom.faithful {scope : Scope} {element : Element}
    {calls : List String} (built : BuiltFrom scope element construct)
    (plain : construct.kind.target? = none)
    (enclosed : ∀ child ∈ construct.children,
      child.span.start < child.span.stop)
    (called : calls.length = construct.children.length) :
    Faithful scope.source construct calls (Segment.weave construct.runs calls)
      (Cut.weave construct.runs (Cut.ofCalls construct.children calls)) := by
  have woven := built.woven plain enclosed called
  have html := built.html
  obtain ⟨text, spelled, restored⟩ := woven.restores (isCut_of_slice? html).1
  obtain rfl : construct.html.toList = text :=
    Option.some.inj (html.symm.trans spelled)
  exact ⟨html, called, Cut.weave_perm _ _, woven.pairwise, woven.covers,
    woven.expressions,
    woven.no_empty_markup, woven.alternates, restored⟩

end Construct

theorem Catalog.exists_builtFrom {files : List TemplateFile} {catalog : Catalog}
    {events : List Event} (parsed : Catalog.parse files = .ok (catalog, events))
    {component : Component} (member : component ∈ catalog.components)
    {construct : Construct} (inside : construct ∈ component.root.walk) :
    ∃ file ∈ files, component.file = file.label ∧
      ∃ known name element,
        Construct.BuiltFrom ⟨Source.ofText file.text, known, name⟩ element
          construct ∧
        ∀ child ∈ construct.children, child.span.start < child.span.stop := by
  obtain ⟨file, inFiles, document, root, known, told, read, inDocument, built,
      label, _⟩ :=
    Catalog.parse_ok parsed member
  obtain ⟨element, below, made⟩ :=
    (Construct.build_ok built).walk construct inside
  have encloses := Construct.BuiltFrom.encloses_of_document
    ⟨Source.ofText file.text, known, Construct.declaredName? root⟩ read
      inDocument below made
  obtain ⟨_, _, _, _, _, within⟩ := encloses.within
  exact ⟨file, inFiles, label, known, Construct.declaredName? root, element,
    made,
    fun child under => (within child under).2.1⟩

/-- Every construct of a component that is no placeholder writes its own markup,
cut exactly at its children and its markers. -/
theorem Catalog.series_faithful {files : List TemplateFile} {catalog : Catalog}
    {events : List Event} (parsed : Catalog.parse files = .ok (catalog, events))
    {component : Component} (member : component ∈ catalog.components)
    {construct : Construct} (inside : construct ∈ component.root.walk)
    (plain : construct.kind.target? = none) {signatures : Signatures}
    {inner : List Declaration}
    (declared : Declaration.ofConstructs signatures construct.children =
      .ok inner)
    (builder : String) :
    ∃ file ∈ files, component.file = file.label ∧
      ∃ content cuts, Declaration.content signatures construct builder inner =
        .ok content ∧
        construct.Faithful (Source.ofText file.text)
          (inner.map Declaration.call)
          content.segments cuts := by
  obtain ⟨file, inFiles, label, _, _, _, made, enclosed⟩ :=
    Catalog.exists_builtFrom parsed member inside
  have called : (inner.map Declaration.call).length =
      construct.children.length := by
    rw [List.length_map, Declaration.length_of_ofConstructs declared]
  refine ⟨file, inFiles, label, ?_⟩
  have content : Declaration.content signatures construct builder inner =
      .ok ⟨Segment.weave construct.runs (inner.map Declaration.call),
        Declaration.body builder inner
          (Segment.weave construct.runs (inner.map Declaration.call)), []⟩ := by
    unfold Declaration.content
    cases kind : construct.kind with
    | placeholder target arguments =>
        simp [kind, Construct.Kind.target?] at plain
    | component | loop | conditional | alternative | slot => rfl
  exact ⟨_, _, content, made.faithful plain enclosed called⟩

/-- A marker in a tag, and a child with a marker right behind it. -/
theorem Catalog.series_faithful_card :
    let file : TemplateFile := ⟨"card.html",
      "<div _component=\"Card\" id=\"$prop('Id')\">é\n" ++
        "<p _if=\"On\">$val(x)</p>$slot(\"Body\")</div>"⟩
    ∃ catalog events component inner,
      Catalog.parse [file] = .ok (catalog, events) ∧
      component ∈ catalog.components ∧ component.root.kind.target? = none ∧
      Declaration.ofConstructs .empty component.root.children = .ok inner ∧
      ∃ content cuts,
        Declaration.content .empty component.root "builder" inner =
          .ok content ∧
        content.segments = [.markup "<div _component=\"Card\" id=\"",
          .code "gtmlEscape(Id)", .markup "\">é", .code "gtmlIf(On, if1)",
          .code "Body", .markup "</div>"] ∧
        component.root.Faithful (Source.ofText file.text)
          (inner.map Declaration.call) content.segments cuts := by
  intro file
  have shape : (Catalog.parse [file]).map
      (fun result => result.1.components.map fun component =>
        (component.root.kind.target?,
          (Declaration.ofConstructs .empty component.root.children).map
            fun inner =>
              (Declaration.content .empty component.root "builder" inner).map
                fun content => content.segments)) =
      .ok [(none, .ok (.ok [.markup "<div _component=\"Card\" id=\"",
        .code "gtmlEscape(Id)", .markup "\">é", .code "gtmlIf(On, if1)",
        .code "Body", .markup "</div>"]))] := by
    decide +kernel
  obtain ⟨⟨catalog, events⟩, parsed, components⟩ := Except.map_eq_ok.mp shape
  obtain ⟨component, rest, listed, here, _⟩ :=
    List.map_eq_cons_iff.mp components
  obtain ⟨plain, written⟩ := Prod.mk.inj here
  obtain ⟨inner, declared, written⟩ := Except.map_eq_ok.mp written
  obtain ⟨content, content_eq, segments⟩ := Except.map_eq_ok.mp written
  have member : component ∈ catalog.components := by
    rw [listed]
    exact List.mem_cons_self ..
  obtain ⟨found, only, _, written, cuts, same, faithful⟩ :=
    Catalog.series_faithful parsed member
    (Construct.mem_walk_self component.root) plain declared "builder"
  obtain rfl : found = file := List.mem_singleton.mp only
  obtain rfl : content = written := Except.ok.inj (content_eq.symm.trans same)
  exact ⟨catalog, events, component, inner, parsed, member, plain, declared,
    content, cuts,
    content_eq, segments, faithful⟩

end Stencil
