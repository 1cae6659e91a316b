import Stencil.Proofs.Naming
import Stencil.Proofs.Verbatim

namespace Stencil

open Text Emit

/-! The lines of a construct's code stand among those of the code around it with
tabs before them and nothing else changed. -/

theorem Call.fullLine_text {signatures : Signatures} {target html : String}
    {arguments : List Argument} {slots : List SlotArgument}
    {linked : LinkedCall}
    (links : link signatures target html arguments slots = .ok linked)
    (named : OneLine target)
    (passed : ∀ argument ∈ arguments, argument.value.OnOneLine)
    (rendered : ∀ slot ∈ slots, OneLine slot.expression) :
    FullLine linked.call.text := by
  obtain ⟨parameters, draft, _, holds, same, _, mapped⟩ := link_ok links
  have each : ∀ text ∈ linked.call.arguments, OneLine text := by
    intro text listed
    obtain ⟨parameter, _, given⟩ :=
      (Except.forall₂_of_mapM mapped).exists_of_mem_right listed
    unfold Draft.argument at given
    split at given
    · cases given
    · rename_i binding chosen
      obtain rfl := Except.ok.inj given
      obtain ⟨supply, member, other, _, _, written⟩ :=
        holds.bound.exists_of_mem_right (List.mem_of_find?_eq_some chosen)
      rcases List.mem_append.mp
        (List.mem_of_mem_filter member) with ofArgument | ofSlot
      · obtain ⟨argument, listed, rfl⟩ := List.mem_map.mp ofArgument
        exact Parameter.oneLine_of_convert (passed argument listed) written
      · obtain ⟨slot, listed, rfl⟩ := List.mem_map.mp ofSlot
        exact Except.ok.inj written ▸ rendered slot listed
  refine .append ?_ ⟨by decide, ')', rfl, by decide⟩
  simp only [oneLine_append, same]
  exact ⟨⟨named, by decide⟩, oneLine_intercalate (by decide) each⟩

namespace Declaration

variable {signatures : Signatures} {construct : Construct} {part : Declaration}

section Lines

theorem oneLine_elementType {type : String} (plain : OneLine type) :
    OneLine (elementType type) := by
  unfold elementType
  split
  · rename_i rest shape
    refine oneLine_of_subset ?_ plain
    rw [String.toList_ofList, shape]
    intro char member
    exact List.mem_cons_of_mem _ (List.mem_cons_of_mem _ member)
  · exact plain

theorem oneLine_nameOf (plain : construct.OnOneLine) :
    OneLine (nameOf construct.kind construct.id) := by
  have words := plain.words
  cases kind : construct.kind with
  | component name =>
      rw [kind] at words
      exact words name (List.mem_singleton_self _)
  | loop | conditional | alternative | placeholder | slot =>
      exact oneLine_of_spelled (spelled_nameOf (by simp) _)

theorem fullLine_indentLines {lines : List String}
    (full : ∀ line ∈ lines, FullLine line) :
    ∀ line ∈ indentLines lines, FullLine line := by
  rw [indentLines_of_full full]
  intro line member
  obtain ⟨inner, listed, rfl⟩ := List.mem_map.mp member
  exact .append (by decide) (full inner listed)

theorem fullLine_body {builder : String} {inner : List Declaration}
    {segments : List Segment} (named : OneLine builder)
    (full : ∀ part ∈ inner, ∀ line ∈ part.lines, FullLine line)
    (written : ∀ segment ∈ segments, OneLine segment.text) :
    ∀ line ∈ body builder inner segments, FullLine line := by
  rw [body, List.cons_append, List.cons_append]
  simp only [List.forall_mem_cons, List.forall_mem_append]
  refine ⟨?_, ⟨?_, ?_⟩, ?_, List.forall_mem_nil _⟩
  · exact .append (oneLine_append.mpr ⟨by decide, named⟩)
      ⟨by decide, 'r', rfl, by decide⟩
  · intro line member
    obtain ⟨part, listed, inside⟩ := List.mem_flatMap.mp member
    exact fullLine_indentLines (full part listed) line inside
  · intro line member
    obtain ⟨segment, listed, rfl⟩ := List.mem_map.mp member
    refine .append ?_ ⟨by decide, ')', rfl, by decide⟩
    simp only [oneLine_append]
    exact ⟨⟨⟨by decide, named⟩, by decide⟩, written segment listed⟩
  · exact .append (oneLine_append.mpr ⟨by decide, named⟩)
      ⟨by decide, ')', rfl, by decide⟩

theorem fullLine_callBody {linked : LinkedCall}
    {slots : List (String × Declaration)} (call : FullLine linked.call.text)
    (full : ∀ slot ∈ slots, ∀ line ∈ slot.2.lines, FullLine line) :
    ∀ line ∈ callBody linked slots, FullLine line := by
  rw [callBody]
  simp only [List.forall_mem_append, List.forall_mem_singleton]
  refine ⟨?_, .append (by decide) call⟩
  intro line member
  obtain ⟨slot, listed, inside⟩ := List.mem_flatMap.mp member
  exact fullLine_indentLines (full slot (List.mem_of_mem_filter listed)) line
    inside

variable
  (parameters : ∀ entry ∈ signatures.entries, ∀ parameter ∈ entry.parameters,
  OneLine parameter.text)

include parameters

theorem oneLine_frame (plain : construct.OnOneLine) {name html : String}
    {frame : Frame} (named : OneLine name)
    (framed : Declaration.frame signatures construct.kind name html =
      .ok frame) :
    OneLine frame.header ∧ OneLine frame.call := by
  have words := plain.words
  cases kind : construct.kind with
  | component component =>
      rw [kind] at words framed
      have own := words component (List.mem_singleton_self _)
      rw [Declaration.frame] at framed
      split at framed
      · cases framed
      · rename_i known found
        obtain rfl := Except.ok.inj framed
        refine ⟨?_, own⟩
        simp only [oneLine_append]
        refine ⟨⟨⟨⟨by decide, own⟩, by decide⟩,
          oneLine_intercalate (by decide) ?_⟩, by decide⟩
        intro text listed
        obtain ⟨parameter, member, rfl⟩ := List.mem_map.mp listed
        exact parameters _ (Signatures.mem_of_get? found) parameter member
  | loop item collection type =>
      rw [kind] at words framed
      obtain rfl := Except.ok.inj framed
      simp only [Construct.Kind.parts, List.forall_mem_cons] at words
      obtain ⟨item, _, collection, type, _⟩ := words
      simp only [oneLine_append]
      exact
        ⟨⟨⟨⟨⟨⟨named, by decide⟩, item⟩, by decide⟩, oneLine_elementType type⟩,
          by decide⟩,
        ⟨⟨⟨by decide, collection⟩, by decide⟩, named⟩, by decide⟩
  | conditional condition | alternative condition =>
      rw [kind] at words framed
      obtain rfl := Except.ok.inj framed
      have own := words condition (List.mem_singleton_self _)
      simp only [closure, oneLine_append]
      exact ⟨⟨named, by decide⟩, ⟨⟨⟨by decide, own⟩, by decide⟩, named⟩,
        by decide⟩
  | placeholder =>
      rw [kind] at framed
      obtain rfl := Except.ok.inj framed
      simp only [closure, oneLine_append]
      exact ⟨⟨named, by decide⟩, named, by decide⟩
  | slot =>
      rw [kind] at framed
      obtain rfl := Except.ok.inj framed
      simp only [closure, oneLine_append]
      exact ⟨⟨named, by decide⟩, ⟨by decide, named⟩, by decide⟩

theorem oneLine_call (plain : construct.OnOneLine)
    (declared : ofConstruct signatures construct = .ok part) :
    OneLine part.call := by
  obtain ⟨_, frame, _, _, framed, named, call, _⟩ := ofConstruct_ok declared
  have named : OneLine part.name := named ▸ oneLine_nameOf plain
  exact call ▸ (oneLine_frame parameters plain named framed).2

/-- A declaration has full lines only, if those inside it do. -/
theorem fullLine_step (plain : construct.OnOneLine)
    (below : ∀ child ∈ construct.children, child.OnOneLine)
    (declared : ofConstruct signatures construct = .ok part)
    (full : ∀ inner ∈ part.inner, ∀ line ∈ inner.lines, FullLine line) :
    ∀ line ∈ part.lines, FullLine line := by
  obtain ⟨content, frame, made, written, framed, named, _, lines⟩ :=
    ofConstruct_ok declared
  have header : OneLine frame.header :=
    (oneLine_frame parameters plain (named ▸ oneLine_nameOf plain) framed).1
  have inside : ∀ line ∈ content.body, FullLine line := by
    by_cases called : construct.kind.target? = none
    · have builder : OneLine part.builder := by
        rw [(ofConstruct_fields declared).2.1]
        exact oneLine_of_spelled (spelled_builderOf _ _)
      rw [content_plain called written]
      refine fullLine_body builder full ?_
      rw [content_segments called written]
      refine Segment.oneLine_weave plain.markers ?_
      intro call listed
      obtain ⟨inner, member, rfl⟩ := List.mem_map.mp listed
      obtain ⟨child, under, childDeclared⟩ := made.exists_of_mem_right member
      exact oneLine_call parameters (below child under) childDeclared
    · obtain ⟨target, called⟩ := Option.ne_none_iff_exists'.mp called
      obtain ⟨arguments, kind⟩ := Construct.Kind.target?_eq_some.mp called
      obtain ⟨linked, links, body⟩ := content_placeholder kind made written
      have named : OneLine target :=
        plain.words target (by simp [kind, Construct.Kind.parts])
      have passed := plain.arguments target arguments kind
      rw [body]
      refine fullLine_callBody (Call.fullLine_text links named passed ?_) ?_
      · intro slot listed
        obtain ⟨child, under, found⟩ := List.mem_filterMap.mp listed
        unfold Construct.slotArgument? at found
        split at found
        · obtain rfl := Option.some.inj found
          simp only [oneLine_append]
          exact ⟨⟨by decide, oneLine_nameOf (below child under)⟩, by decide⟩
        · cases found
      · intro slot listed
        exact full slot.2 ((slots_sublist _ _).subset
          (List.mem_map_of_mem listed))
  rw [lines]
  simp only [List.cons_append, List.forall_mem_cons, List.forall_mem_append]
  exact ⟨.append header ⟨by decide, '\x7b', rfl, by decide⟩, inside,
    ⟨by decide, '\x7d', rfl, by decide⟩, List.forall_mem_nil _⟩

theorem fullLine_lines {root : Construct} {whole : Declaration}
    (plain : ∀ construct ∈ root.walk, construct.OnOneLine)
    (declared : ofConstruct signatures root = .ok whole) :
    ∀ line ∈ whole.lines, FullLine line := by
  induction root using Construct.children_induction generalizing whole with
  | pass root induction =>
      have walked : ∀ child ∈ root.children, child ∈ root.walk :=
          fun child inside =>
            Construct.mem_walk_of_child inside (Construct.mem_walk_self child)
      refine fullLine_step parameters
        (plain root (Construct.mem_walk_self root))
        (fun child inside => plain child (walked child inside)) declared ?_
      intro inner member
      obtain ⟨_, _, made, _⟩ := ofConstruct_ok declared
      obtain ⟨child, inside, childDeclared⟩ := made.exists_of_mem_right member
      refine induction child inside ?_ childDeclared
      exact fun construct below =>
        plain construct (Construct.mem_walk_of_child inside below)

end Lines

section Layout

def included (signatures : Signatures) (construct : Construct)
    (part : Declaration) :
    List Declaration :=
  ((construct.children.zip part.inner).filter fun pair =>
    construct.keeps signatures pair.1).map Prod.snd

def opening (construct : Construct) (part : Declaration) : List String :=
  if construct.kind.target?.isSome then
    [] else ["\tvar " ++ part.builder ++ " strings.Builder"]

def writeLine (builder : String) (segment : Segment) : String :=
  "\t" ++ builder ++ ".WriteString(" ++ segment.text ++ ")"

theorem included_plain (plain : construct.kind.target? = none)
    (declared : ofConstruct signatures construct = .ok part) :
    part.included signatures construct = part.inner := by
  obtain ⟨_, _, made, _⟩ := ofConstruct_ok declared
  have all : ∀ pair ∈ construct.children.zip part.inner,
      construct.keeps signatures pair.1 := by
    intro pair _
    simp [Construct.keeps, plain]
  rw [included, List.filter_eq_self.mpr all]
  exact List.map_snd_zip (Nat.le_of_eq made.length_eq.symm)

theorem filter_slots (children : List Construct) (inner : List Declaration)
    (test : String → Bool) :
    ((slots children inner).filter fun slot => test slot.1).map Prod.snd =
      ((children.zip inner).filter fun pair =>
        pair.1.slotArgument?.any fun argument =>
          test argument.name).map Prod.snd := by
  unfold slots
  induction children.zip inner with
  | nil => rfl
  | cons pair rest induction =>
      rw [List.filterMap_cons, List.filter_cons]
      cases kind : pair.1.kind with
      | slot name =>
          cases passes : test name <;>
            simp [Construct.slotArgument?, kind, passes, induction]
      | component | loop | conditional | alternative | placeholder =>
          simp [Construct.slotArgument?, kind, induction]

theorem included_placeholder {target : String} {arguments : List Argument}
    (kind : construct.kind = .placeholder target arguments)
    {linked : LinkedCall}
    (links : Call.link signatures target construct.html arguments
      (construct.children.filterMap Construct.slotArgument?) = .ok linked) :
    part.included signatures construct =
      ((slots construct.children part.inner).filter fun slot =>
        linked.usedSlots.contains slot.1).map Prod.snd := by
  obtain ⟨parameters, _, known, _⟩ := Call.link_runs links
  rw [included, filter_slots]
  congr 1
  apply List.filter_congr
  intro pair listed
  rw [Construct.keeps, kind, Construct.Kind.target?, Option.all_some,
    Construct.goesTo, known]
  cases argument : pair.1.slotArgument? with
  | none => rfl
  | some slot =>
      have passed :
          slot ∈ construct.children.filterMap Construct.slotArgument? :=
        List.mem_filterMap.mpr ⟨pair.1, (List.of_mem_zip listed).1, argument⟩
      exact (Call.link_used links known slot passed).symm

theorem lines_layout (declared : ofConstruct signatures construct = .ok part) :
    ∃ header result, part.lines = header :: (part.opening construct ++
      (part.included signatures construct).flatMap
        (fun inner => indentLines inner.lines) ++
      part.segments.map (writeLine part.builder) ++ [result, "\x7d"]) := by
  obtain ⟨content, frame, made, written, _, _, _, lines⟩ :=
    ofConstruct_ok declared
  have segments := (ofConstruct_fields declared).2.2 content written
  have inside : ∃ result, content.body = part.opening construct ++
      (part.included signatures construct).flatMap
        (fun inner => indentLines inner.lines) ++
      part.segments.map (writeLine part.builder) ++ [result] := by
    by_cases called : construct.kind.target? = none
    · refine ⟨"\treturn " ++ part.builder ++ ".String()", ?_⟩
      rw [content_plain called written, included_plain called declared,
        segments, opening, called]
      rfl
    · obtain ⟨target, called⟩ := Option.ne_none_iff_exists'.mp called
      obtain ⟨arguments, kind⟩ := Construct.Kind.target?_eq_some.mp called
      obtain ⟨linked, links, body⟩ := content_placeholder kind made written
      have silent : part.segments = [] := by
        unfold Declaration.content at written
        rw [kind] at written
        obtain ⟨_, _, rfl⟩ := Except.map_eq_ok.mp written
        exact segments
      refine ⟨"\treturn " ++ linked.call.text, ?_⟩
      rw [body, included_placeholder kind links, silent, opening, called,
        List.flatMap_map, List.map_nil, List.append_nil]
      rfl
  obtain ⟨result, inside⟩ := inside
  refine ⟨frame.header ++ " \x7b", result, ?_⟩
  rw [lines, inside, List.cons_append, List.append_assoc _ [result]]
  rfl

theorem splitLines_code (declared : ofConstruct signatures construct = .ok part)
    (full : ∀ line ∈ part.lines, FullLine line) :
    splitLines part.code = part.lines := by
  obtain ⟨_, _, _, _, _, _, _, lines⟩ := ofConstruct_ok declared
  refine splitLines_joinLines ?_ fun line member => (full line member).oneLine
  rw [lines, List.cons_append]
  exact List.cons_ne_nil _ _

/-- The code line by line: no line is empty, what is declared inside stands
there one tab further in, and each segment is written on a line of its own. -/
structure Laid (signatures : Signatures) (construct : Construct)
    (part : Declaration) : Prop where
  filled : "" ∉ splitLines part.code
  layout : ∃ header result,
    splitLines part.code = header :: (part.opening construct ++
    (part.included signatures construct).flatMap (fun inner =>
      (splitLines inner.code).map ("\t" ++ ·)) ++
    part.segments.map (writeLine part.builder) ++ [result, "\x7d"])
  indented : splitLines (indent part.code) =
    (splitLines part.code).map ("\t" ++ ·)

theorem laid_of_full (declared : ofConstruct signatures construct = .ok part)
    (full : ∀ line ∈ part.lines, FullLine line)
    (below : ∀ inner ∈ part.inner, ∀ line ∈ inner.lines, FullLine line) :
    part.Laid signatures construct := by
  have lines := splitLines_code declared full
  refine ⟨?_, ?_, ?_⟩
  · rw [lines]
    exact fun empty => (full "" empty).ne_empty rfl
  · obtain ⟨header, result, layout⟩ := lines_layout declared
    obtain ⟨_, _, made, _⟩ := ofConstruct_ok declared
    have blocks : ∀ inner ∈ part.included signatures construct,
        indentLines inner.lines = (splitLines inner.code).map ("\t" ++ ·) := by
      intro inner listed
      obtain ⟨pair, member, rfl⟩ := List.mem_map.mp listed
      have inside := (List.of_mem_zip (List.mem_of_mem_filter member)).2
      obtain ⟨_, _, innerDeclared⟩ := made.exists_of_mem_right inside
      rw [splitLines_code innerDeclared (below pair.2 inside),
        indentLines_of_full (below pair.2 inside)]
    refine ⟨header, result, lines.trans ?_⟩
    rw [layout, List.flatMap_congr blocks]
  · rw [lines, code, indent_joinLines full, splitLines_joinLines]
    · rw [← lines]
      simp [splitLines, split_eq_splitOn, List.splitOn_ne_nil]
    · intro line member
      rw [← indentLines_of_full full] at member
      exact (fullLine_indentLines full line member).oneLine

end Layout

end Declaration

namespace Catalog

variable {files : List TemplateFile} {catalog : Catalog} {events : List Event}

/-- The code of a construct is laid out line by line, and that of each construct
below it whose way no call leaves out is a block of its lines: with as many tabs
before each line as there are constructs on the way, and as it was without
them. -/
theorem nesting_adds_only_tabs (parsed : parse files = .ok (catalog, events))
    {signatures : Signatures}
    (derived : Signatures.ofCatalog catalog = .ok signatures)
    {component : Component} (member : component ∈ catalog.components)
    {construct : Construct} (inside : construct ∈ component.root.walk)
    {part : Declaration}
    (declared : Declaration.ofConstruct signatures construct = .ok part) :
    part.Laid signatures construct ∧
    ∀ lineage ∈ construct.lineages [], Construct.Shown signatures lineage →
      ∃ inner before block behind,
        Declaration.ofConstruct signatures lineage.2 = .ok inner ∧
        splitLines part.code = before ++ block ++ behind ∧
        block = (splitLines inner.code).map (tabs lineage.1.length ++ ·) ∧
        joinLines (block.map (outdentLine lineage.1.length)) = inner.code := by
  have parameters := oneLine_parameters parsed derived
  have full : ∀ other ∈ construct.walk, ∀ whole,
      Declaration.ofConstruct signatures other = .ok whole →
      ∀ line ∈ whole.lines, FullLine line := by
    intro other walked whole otherDeclared
    refine Declaration.fullLine_lines parameters ?_ otherDeclared
    intro below under
    exact onOneLine parsed member
      (Construct.mem_walk_of_walk inside
        (Construct.mem_walk_of_walk walked under))
  have fullPart := full construct (Construct.mem_walk_self _) part declared
  constructor
  · refine Declaration.laid_of_full declared fullPart ?_
    intro inner listed
    obtain ⟨_, _, made, _⟩ := Declaration.ofConstruct_ok declared
    obtain ⟨child, under, childDeclared⟩ := made.exists_of_mem_right listed
    exact full child (Construct.mem_walk_of_child under
      (Construct.mem_walk_self child)) inner
      childDeclared
  · intro lineage placed shown
    have onlySlots : ∀ outer ∈ construct.walk, outer.kind.target? ≠ none →
        ∀ child ∈ outer.children, child.kind.isSlot := by
      intro outer walked called
      obtain ⟨_, _, _, _, _, _, built, _⟩ :=
        exists_builtFrom parsed member
          (Construct.mem_walk_of_walk inside walked)
      exact built.slots_of_placeholder called
    obtain ⟨path, same, _, lines⟩ :=
      Declaration.lines_of_lineages construct declared onlySlots placed
    obtain rfl : lineage.1 = path := same
    obtain ⟨inner, innerDeclared, before, behind, within⟩ := lines shown
    have walked : lineage.2 ∈ construct.walk := by
      rw [← Construct.lineages_map_snd construct []]
      exact List.mem_map_of_mem placed
    have fullInner := full lineage.2 walked inner innerDeclared
    refine ⟨inner, before, _, behind, innerDeclared, ?_, rfl, ?_⟩
    · rw [Declaration.splitLines_code declared fullPart,
        Declaration.splitLines_code innerDeclared fullInner,
        ← indentLines_iterate fullInner,
        within]
    · have restored :
          ∀ line, (outdentLine lineage.1.length ∘ (tabs lineage.1.length ++ ·))
            line =
          line := outdentLine_tabs lineage.1.length
      rw [List.map_map, List.map_id'' restored, joinLines_splitLines]

/-- A text and an expression with marks and tabs in them, three constructs deep,
beside a slot that its call leaves out. -/
theorem nesting_adds_only_tabs_slot :
    let files : List TemplateFile :=
      [⟨"page.html",
          "<p _component=\"Page\">\n<card title=\"a\tb\"><i _slot=\"body\">" ++
          "<b _if=\"on\">\"\\\t\x7b\x7b f(\"x\",\ty) \x7d\x7d</b></i>" ++
          "<u _slot=\"rest\">c</u></card></p>"⟩,
        ⟨"card.html",
          "<p _component=\"Card\">\x7b\x7b title \x7d\x7d$slot('body')</p>"⟩]
    let lines : List String :=
      ["if3 := func() string \x7b", "\tvar if3Builder strings.Builder",
        "\tif3Builder.WriteString(\"<b _if=\\\"on\\\">\\\"\\\\\\t\")",
        "\tif3Builder.WriteString(gtmlEscape(f(\"x\",\ty)))",
        "\tif3Builder.WriteString(\"</b>\")", "\treturn if3Builder.String()",
        "\x7d"]
    ∃ catalog events signatures page part before behind,
      parse files = .ok (catalog, events) ∧
      Signatures.ofCatalog catalog = .ok signatures ∧
      page ∈ catalog.components ∧
      Declaration.ofConstruct signatures page.root = .ok part ∧
      part.Laid signatures page.root ∧
      splitLines part.code = before ++ lines.map ("\t\t\t" ++ ·) ++ behind := by
  intro files lines
  let signatures : Signatures :=
    ⟨[⟨"Card", [⟨"title", "string"⟩, ⟨"body", "string"⟩]⟩,
      ⟨"Page", [⟨"on", "bool"⟩]⟩]⟩
  have shape : (parse files).map (fun result =>
      (decide (Signatures.ofCatalog result.1 = .ok signatures),
        result.1.components.any fun page =>
          decide ((Declaration.ofConstruct signatures page.root).map
            Declaration.name = .ok "Page") &&
          (page.root.lineages []).any fun lineage =>
            decide (lineage.1.length = 3) &&
            decide (Construct.Shown signatures lineage) &&
            decide ((Declaration.ofConstruct signatures lineage.2).map
              (fun inner => splitLines inner.code) = .ok lines))) =
      .ok (true, true) := by
    decide +kernel
  obtain ⟨⟨catalog, events⟩, parsed, shape⟩ := Except.map_eq_ok.mp shape
  obtain ⟨derived, found⟩ := Prod.mk.inj shape
  have derived : Signatures.ofCatalog catalog = .ok signatures :=
    of_decide_eq_true derived
  simp only [List.any_eq_true, Bool.and_eq_true, decide_eq_true_eq] at found
  obtain ⟨page, member, named, lineage, placed, ⟨deep, shown⟩, written⟩ := found
  obtain ⟨part, declared, _⟩ := Except.map_eq_ok.mp named
  obtain ⟨laid, blocks⟩ :=
    nesting_adds_only_tabs parsed derived member (Construct.mem_walk_self _)
      declared
  obtain ⟨inner, before, _, behind, innerDeclared, within, rfl, _⟩ :=
    blocks lineage placed shown
  obtain ⟨_, same, written⟩ := Except.map_eq_ok.mp written
  obtain rfl := Except.ok.inj (innerDeclared.symm.trans same)
  rw [deep, written] at within
  exact ⟨catalog, events, signatures, page, part, before, behind, parsed,
    derived, member, declared,
    laid, within⟩

end Catalog

end Stencil
