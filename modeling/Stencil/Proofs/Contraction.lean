import Stencil.Proofs.Building
import Stencil.Proofs.Geometry

namespace Stencil

open Text

/-! The constructs of a tree stand to each other as their elements do in the
document, with all plain elements left out. -/

namespace Node

mutual
/-- The elements at or below a node in document order, each with those around it
up to there, outermost first and behind the given ones. -/
def lineages (around : List Element) : Node → List (List Element × Element)
  | .element tag tagSpan span children =>
      (around, ⟨tag, tagSpan, span, children⟩) ::
        forestLineages (around ++ [⟨tag, tagSpan, span, children⟩]) children
  | _ => []

def forestLineages (around : List Element) :
    List Node → List (List Element × Element)
  | [] => []
  | node :: rest => node.lineages around ++ forestLineages around rest
end

mutual
theorem lineages_eq_map (node : Node) (around : List Element) :
    node.lineages around = (node.lineages []).map fun entry =>
      (around ++ entry.1, entry.2) := by
  cases node with
  | element tag tagSpan span children =>
      rw [lineages, lineages, forestLineages_eq_map children (around ++ [_]),
        forestLineages_eq_map children ([] ++ [_])]
      simp
  | text | comment | doctype => rfl

theorem forestLineages_eq_map (nodes : List Node) (around : List Element) :
    forestLineages around nodes =
      (forestLineages [] nodes).map fun entry =>
        (around ++ entry.1, entry.2) := by
  cases nodes with
  | nil => rfl
  | cons node rest =>
      rw [forestLineages, forestLineages, lineages_eq_map node around,
        forestLineages_eq_map rest around, List.map_append]
end

mutual
theorem lineages_map_snd (node : Node) (around : List Element) (depth : Nat) :
    (node.lineages around).map Prod.snd =
      (Element.walk depth (Element.among [node])).map Prod.snd := by
  cases node with
  | element tag tagSpan span children =>
      have inside := forestLineages_map_snd children
        (around ++ [⟨tag, tagSpan, span, children⟩]) (depth + 1)
      simp only [lineages, List.map_cons, inside]
      rw [show Element.among [.element tag tagSpan span children] =
        [⟨tag, tagSpan, span, children⟩] from rfl, Element.walk_cons]
      simp [Element.elements]
  | text span | comment span | doctype span =>
      have childless : Element.walk depth [] = [] := Element.walk_nil depth
      exact (congrArg (List.map Prod.snd) childless).symm

theorem forestLineages_map_snd (nodes : List Node) (around : List Element)
    (depth : Nat) :
    (forestLineages around nodes).map Prod.snd =
      (Element.walk depth (Element.among nodes)).map Prod.snd := by
  cases nodes with
  | nil => simp [forestLineages, Element.among]
  | cons node rest =>
      have here := lineages_map_snd node around depth
      have behind := forestLineages_map_snd rest around depth
      have apart : Element.walk depth (Element.among (node :: rest)) =
          Element.walk depth (Element.among [node]) ++
            Element.walk depth (Element.among rest) := by
        unfold Element.walk
        rw [← Walk.list_append, ← List.map_append]
        unfold Element.among
        rw [← List.filterMap_append, List.singleton_append]
      rw [forestLineages, List.map_append, here, behind, apart, List.map_append]
end

end Node

namespace Scope

variable (scope : Scope)

/-- The element carries a directive, or its tag names a component other than the
one that is being read. -/
def isConstruct (element : Element) : Bool :=
  (Directive.all.any fun directive =>
    element.tag.attributes.any fun attr =>
      sameIgnoringCase attr.name directive.name) ||
  scope.known.any fun name =>
    scope.component != some name && sameIgnoringCase name element.name

/-- The element is a construct, and none of those around it is. -/
def isNearest (lineage : List Element × Element) : Bool :=
  scope.isConstruct lineage.2 && !lineage.1.any scope.isConstruct

def nearestAmong (nodes : List Node) : List Element :=
  ((Node.forestLineages [] nodes).filter scope.isNearest).map Prod.snd

def nearest (element : Element) : List Element :=
  scope.nearestAmong element.children

variable {scope} {element : Element}

theorem directive_eq_none_iff : Directive.of? element = none ↔
    (Directive.all.any fun directive =>
      element.tag.attributes.any fun attr =>
        sameIgnoringCase attr.name directive.name) = false := by
  simp [Directive.of?, Element.attribute?]

theorem target?_eq_none_iff {name : String} : scope.target? name = none ↔
    (scope.known.any fun candidate =>
      scope.component != some candidate &&
        sameIgnoringCase candidate name) = false := by
  simp [target?]

theorem isConstruct_of_kind? {isRoot : Bool} {kind : Option Construct.Kind}
    (classified : scope.kind? element isRoot = .ok kind) :
    scope.isConstruct element = kind.isSome := by
  have found :
      ∀ {α : Type} {step : Except TemplateError α} {make : α → Construct.Kind},
      step.map (fun value => some (make value)) = .ok kind →
      kind.isSome = true := by
    intro α step make mapped
    obtain ⟨value, _, rfl⟩ := Except.map_eq_ok.mp mapped
    rfl
  unfold isConstruct
  unfold kind? at classified
  cases directive : Directive.of? element with
  | none =>
      rw [directive_eq_none_iff.mp directive, Bool.false_or]
      simp only [directive] at classified
      cases target : scope.target? element.name with
      | none =>
          simp only [target] at classified
          cases classified
          exact target?_eq_none_iff.mp target
      | some name =>
          simp only [target] at classified
          rw [found classified, ← Bool.not_eq_false]
          exact fun unnamed => by
            simp [target?_eq_none_iff.mpr unnamed] at target
  | some pair =>
      have carries :=
        mt directive_eq_none_iff.mpr
          (by rw [directive]; exact Option.some_ne_none pair)
      rw [eq_true_of_ne_false carries, Bool.true_or]
      obtain ⟨kind, attr⟩ := pair
      cases kind with
      | component =>
          simp only [directive] at classified
          split at classified
          · exact (found classified).symm
          · cases classified
      | loop | conditional | alternative | slot =>
          simp only [directive] at classified
          exact (found classified).symm
      | placeholder =>
          simp only [directive] at classified
          obtain ⟨name, _, classified⟩ := Except.bind_eq_ok.mp classified
          split at classified
          · cases classified
          · exact (found classified).symm

section Nearest

variable {nodes rest : List Node}

theorem nearestAmong_cons (node : Node) : scope.nearestAmong (node :: rest) =
    scope.nearestAmong [node] ++ scope.nearestAmong rest := by
  simp [nearestAmong, Node.forestLineages]

theorem nearestAmong_eq_flatMap :
    scope.nearestAmong nodes = nodes.flatMap fun node => scope.nearestAmong
    [node] := by
  induction nodes with
  | nil => rfl
  | cons node rest induction =>
      rw [nearestAmong_cons, List.flatMap_cons, induction]

theorem nearestAmong_construct (construct : scope.isConstruct element) :
    scope.nearestAmong [element.node] = [element] := by
  have hidden :
      (Node.forestLineages [element] element.children).filter scope.isNearest =
        [] := by
    rw [Node.forestLineages_eq_map, List.filter_eq_nil_iff]
    intro entry member
    obtain ⟨below, _, rfl⟩ := List.mem_map.mp member
    simp [isNearest, construct]
  have here : scope.isNearest ([], element) = true := by
    simp [isNearest, construct]
  unfold nearestAmong
  simp [Node.forestLineages, Element.node, Node.lineages, here, hidden]

theorem nearestAmong_plain (plain : ¬ scope.isConstruct element) :
    scope.nearestAmong [element.node] = scope.nearest element := by
  have same : scope.isNearest ∘ (fun entry => ([element] ++ entry.1, entry.2)) =
      scope.isNearest := by
    funext entry
    simp [isNearest, plain]
  have inside : ((Node.forestLineages [element] element.children).filter
        scope.isNearest).map
      Prod.snd = scope.nearest element := by
    rw [Node.forestLineages_eq_map, List.filter_map, List.map_map, same]
    rfl
  have here : scope.isNearest ([], element) = false := by
    simp [isNearest, plain]
  rw [← inside]
  unfold nearestAmong
  simp [Node.forestLineages, Element.node, Node.lineages, here]

theorem mem_descendants_of_nearest {inner : Element}
    (member : inner ∈ scope.nearest element) :
    inner ∈ element.descendants.map Prod.snd := by
  obtain ⟨entry, kept, rfl⟩ := List.mem_map.mp member
  have listed := List.mem_map_of_mem (f := Prod.snd)
    (List.mem_of_mem_filter kept)
  rwa [Node.forestLineages_map_snd _ _ 1] at listed

end Nearest

section Placement

variable {source : Source} {tokens : List Token} {nodes : List Node}

theorem nearestAmong_covered {node : Node}
    (all : node.All (Node.Placed source tokens)) :
    ∀ inner ∈ scope.nearestAmong [node], node.span.covers inner.span := by
  induction all with
  | @intro node here inside induction =>
      intro inner member
      cases node with
      | element tag tagSpan span children =>
          let element : Element := ⟨tag, tagSpan, span, children⟩
          change inner ∈ scope.nearestAmong [element.node] at member
          by_cases construct : scope.isConstruct element
          · rw [nearestAmong_construct construct, List.mem_singleton] at member
            subst member
            simp [Span.covers, Node.span, element]
          · rw [nearestAmong_plain construct, nearest, nearestAmong_eq_flatMap]
              at member
            obtain ⟨child, under, member⟩ := List.mem_flatMap.mp member
            exact Span.covers_trans (here.children_within child under)
              (induction child under inner member)
      | text | comment | doctype => cases member

theorem nearestAmong_pairwise_of
    (apart : nodes.Pairwise fun left right => left.span.stop ≤ right.span.start)
    (all : ∀ node ∈ nodes, node.All (Node.Placed source tokens))
    (same : ∀ node ∈ nodes,
      (scope.nearestAmong [node]).Pairwise fun left right =>
        left.span.stop ≤ right.span.start) :
    (scope.nearestAmong nodes).Pairwise fun left right =>
      left.span.stop ≤ right.span.start := by
  rw [nearestAmong_eq_flatMap, List.pairwise_flatMap]
  refine ⟨same, List.Pairwise.imp_of_mem ?_ apart⟩
  intro left right leftMember rightMember before first firstMember second
    secondMember
  have inLeft := nearestAmong_covered (all left leftMember) first firstMember
  have inRight := nearestAmong_covered (all right rightMember) second
    secondMember
  rw [Span.covers_iff] at inLeft inRight
  omega

theorem nearestAmong_pairwise {node : Node}
    (all : node.All (Node.Placed source tokens)) :
    (scope.nearestAmong [node]).Pairwise fun left right =>
      left.span.stop ≤ right.span.start := by
  induction all with
  | @intro node here inside induction =>
      cases node with
      | element tag tagSpan span children =>
          let element : Element := ⟨tag, tagSpan, span, children⟩
          change (scope.nearestAmong [element.node]).Pairwise _
          by_cases construct : scope.isConstruct element
          · rw [nearestAmong_construct construct]
            exact List.pairwise_singleton _ _
          · rw [nearestAmong_plain construct]
            exact nearestAmong_pairwise_of here.children_pairwise inside
              induction
      | text | comment | doctype => exact .nil

theorem nearest_pairwise (all : element.node.All (Node.Placed source tokens)) :
    (scope.nearest element).Pairwise fun left right =>
      left.span.stop ≤ right.span.start :=
  nearestAmong_pairwise_of all.here.children_pairwise all.inside
    fun child member => nearestAmong_pairwise (all.inside child member)

theorem nearest_within (all : element.node.All (Node.Placed source tokens)) :
    ∃ stop closing, Ends source tokens element.name stop element.span.stop
      closing ∧
      ∀ inner ∈ scope.nearest element, element.tagSpan.stop ≤ inner.span.start ∧
        inner.span.start < inner.span.stop ∧ inner.span.stop ≤ stop := by
  have placed := all.here.element element rfl
  by_cases single : element.tag.isSingle
  · refine ⟨element.span.stop, [], .leftOpen _, ?_⟩
    intro inner member
    rw [nearest, (placed.single single).2] at member
    cases member
  · obtain ⟨stop, content, closing, tiles, ends, _⟩ := placed.paired single
    refine ⟨stop, closing, ends, ?_⟩
    intro inner member
    obtain ⟨entry, walked, rfl⟩ :=
      List.mem_map.mp (mem_descendants_of_nearest member)
    have nonempty := (Element.all_of_walk all.inside walked).here.nonempty
    rw [nearest, nearestAmong_eq_flatMap] at member
    obtain ⟨child, under, member⟩ := List.mem_flatMap.mp member
    have covered :=
      Span.covers_iff.mp (nearestAmong_covered
        (all.inside child under) _ member)
    obtain ⟨after, before⟩ := tiles.covers child under
    exact ⟨Nat.le_trans after covered.1, nonempty,
      Nat.le_trans covered.2 before⟩

end Placement

end Scope

namespace Construct

mutual
theorem ofNode_builds {scope : Scope} (node : Node)
    {constructs : List Construct} {before after : Progress}
    (run : ofNode scope node before = .ok (constructs, after)) :
    List.Forall₂ (BuiltFrom scope) (scope.nearestAmong [node]) constructs := by
  cases node with
  | element tag tagSpan span children =>
      let element : Element := ⟨tag, tagSpan, span, children⟩
      have ran : ofNode scope element.node before = .ok (constructs, after) :=
        run
      rcases ofNode_ok ran with ⟨classified, inside⟩ | found
      · have plain := Scope.isConstruct_of_kind? classified
        rw [show Node.element tag tagSpan span children = element.node from rfl,
          Scope.nearestAmong_plain (by rw [plain]; exact Bool.false_ne_true)]
        exact ofNodes_builds children inside
      · obtain ⟨kind, construct, classified, rfl, built⟩ := found
        have isConstruct := Scope.isConstruct_of_kind? classified
        rw [show Node.element tag tagSpan span children = element.node from rfl,
          Scope.nearestAmong_construct isConstruct]
        exact .cons built .nil
  | text | comment | doctype =>
      rw [ofNode] at run
      obtain ⟨rfl, _⟩ := Builder.pure_eq_ok.mp run
      exact .nil

/-- The builder makes one construct of each of the nearest, in document
order. -/
theorem ofNodes_builds {scope : Scope} (nodes : List Node)
    {constructs : List Construct} {before after : Progress}
    (run : ofNodes scope nodes before = .ok (constructs, after)) :
    List.Forall₂ (BuiltFrom scope) (scope.nearestAmong nodes) constructs := by
  cases nodes with
  | nil =>
      rw [ofNodes] at run
      obtain ⟨rfl, _⟩ := Builder.pure_eq_ok.mp run
      exact .nil
  | cons node rest =>
      obtain ⟨first, more, middle, rfl, ran, others⟩ := ofNodes_cons_ok run
      rw [Scope.nearestAmong_cons]
      exact List.rel_append (ofNode_builds node ran)
        (ofNodes_builds rest others)
end

theorem BuiltFrom.children {scope : Scope} {element : Element}
    {construct : Construct} (built : BuiltFrom scope element construct) :
    ∃ inner, List.Forall₂ (BuiltFrom scope) (scope.nearest element) inner ∧
      construct.children = construct.kind.kept inner := by
  obtain ⟨_, _, inner, _, _, _, run, assembled⟩ := built.exists_assembled
  exact ⟨inner, ofNodes_builds element.children run, assembled.children_eq⟩

theorem BuiltFrom.walk {scope : Scope} {root : Element} {construct : Construct}
    (built : BuiltFrom scope root construct) :
    ∀ inner ∈ construct.walk, ∃ element ∈ root :: root.descendants.map Prod.snd,
      BuiltFrom scope element inner := by
  refine forall_walk ?_ ⟨root, List.mem_cons_self .., built⟩
  rintro outer ⟨element, member, built⟩ child inside
  obtain ⟨inner, builds, kept⟩ := built.children
  rw [kept] at inside
  obtain ⟨below, nearest, found⟩ :=
    builds.exists_of_mem_right ((Kind.kept_sublist _ inner).subset inside)
  have descendant := Scope.mem_descendants_of_nearest nearest
  refine ⟨below, List.mem_cons_of_mem _ ?_, found⟩
  rcases List.mem_cons.mp member with rfl | member
  · exact descendant
  · exact Element.mem_walk_of_descendant member descendant

theorem spans_of_builds {scope : Scope} {elements : List Element}
    {constructs : List Construct}
    (builds : List.Forall₂ (BuiltFrom scope) elements constructs) :
    constructs.map Construct.span = elements.map Element.span := by
  induction builds with
  | nil => rfl
  | cons built _ induction =>
      rw [List.map_cons, List.map_cons, built.span_eq, induction]

/-- The children of a construct stand one behind the other, behind the start tag
of its element and before the end tag, if it has one; so none of them fills its
span. -/
structure Encloses (source : Source) (element : Element)
    (construct : Construct) : Prop where
  start : element.tagSpan.start = construct.span.start
  tagged : element.tagSpan.start < element.tagSpan.stop
  within : ∃ tokens stop closing, source.tokens = .ok tokens ∧
    Ends source tokens element.name stop construct.span.stop closing ∧
    ∀ child ∈ construct.children, element.tagSpan.stop ≤ child.span.start ∧
      child.span.start < child.span.stop ∧ child.span.stop ≤ stop
  strict : ∀ child ∈ construct.children,
    construct.span.covers child.span ∧ child.span ≠ construct.span
  apart : construct.children.Pairwise fun left right =>
    left.span.stop ≤ right.span.start

theorem BuiltFrom.encloses {scope : Scope} {element : Element}
    {construct : Construct} {tokens : List Token}
    (built : BuiltFrom scope element construct)
    (scanned : scope.source.tokens = .ok tokens)
    (all : element.node.All (Node.Placed scope.source tokens)) :
    Encloses scope.source element construct := by
  obtain ⟨inner, builds, kept⟩ := built.children
  have kept_sublist : construct.children.Sublist inner := by
    rw [kept]
    exact Kind.kept_sublist _ inner
  have tag := all.here.element element rfl
  obtain ⟨stop, closing, ends, nearest_within⟩ := scope.nearest_within all
  have within : ∀ child ∈ construct.children,
      element.tagSpan.stop ≤ child.span.start ∧
      child.span.start < child.span.stop ∧ child.span.stop ≤ stop := by
    intro child inside
    obtain ⟨below, nearest, found⟩ :=
      builds.exists_of_mem_right (kept_sublist.subset inside)
    rw [found.span_eq]
    exact nearest_within below nearest
  have start : element.tagSpan.start = construct.span.start := by
    rw [built.span_eq, tag.start]
  rw [← built.span_eq] at ends
  refine ⟨start, tag.tagged, ⟨tokens, stop, closing, scanned, ends, within⟩, ?_,
    ?_⟩
  · intro child inside
    obtain ⟨after, _, upto⟩ := within child inside
    have tagged := tag.tagged
    have before := ends.le
    refine ⟨Span.covers_iff.mpr ⟨by omega, by omega⟩, ?_⟩
    intro same
    rw [same] at after
    omega
  · have apart := scope.nearest_pairwise all
    rw [← List.pairwise_map (f := Element.span)
      (R := fun left right => left.stop ≤ right.start),
      ← spans_of_builds builds, List.pairwise_map] at apart
    exact apart.sublist kept_sublist

/-- Every construct below an element of a document encloses its children. -/
theorem BuiltFrom.encloses_of_document (scope : Scope) {document : Document}
    {root element : Element} {construct : Construct}
    (parsed : Document.parse scope.source = .ok document)
    (inDocument : root ∈ document.descendants.map Prod.snd)
    (below : element ∈ root :: root.descendants.map Prod.snd)
    (built : BuiltFrom scope element construct) :
    Encloses scope.source element construct := by
  obtain ⟨tokens, scanned, _, all⟩ := Document.parse_places parsed
  refine built.encloses scanned ?_
  have walked : element ∈ document.descendants.map Prod.snd := by
    rcases List.mem_cons.mp below with rfl | inside
    · exact inDocument
    · exact Element.mem_walk_of_descendant inDocument inside
  obtain ⟨entry, listed, rfl⟩ := List.mem_map.mp walked
  exact Element.all_of_walk all listed

/-- The children of a construct are made, in document order, of the constructs
inside its element with no construct strictly between; a placeholder keeps the
slots among them. When the root is an element of the source's document, the
children are enclosed by their parent. -/
theorem build_contracts {source : Source} {root : Element} {known : List String}
    {tree : Construct} {events : List Event}
    (built : build source root known = .ok (tree, events)) :
    let scope : Scope := ⟨source, known, declaredName? root⟩
    ∀ construct ∈ tree.walk, ∃ element ∈ root :: root.descendants.map Prod.snd,
      BuiltFrom scope element construct ∧ construct.span = element.span ∧
      (∃ inner, List.Forall₂ (BuiltFrom scope) (scope.nearest element) inner ∧
        construct.children = construct.kind.kept inner) ∧
      ∀ document, Document.parse source = .ok document →
        root ∈ document.descendants.map Prod.snd →
        Encloses source element construct := by
  intro scope construct member
  obtain ⟨element, below, made⟩ := (build_ok built).walk construct member
  refine ⟨element, below, made, made.span_eq, made.children, ?_⟩
  intro document parsed inDocument
  exact BuiltFrom.encloses_of_document ⟨source, known, declaredName? root⟩
    parsed inDocument below
    made

/-- Plain elements are passed through, an element is left open, and a
placeholder whose tag is written in lower case drops a loop and keeps a slot. -/
theorem build_contracts_placeholder :
    let source := Source.ofText
      ("<a _component=\"A\"><p><u _IF=\"C\">a<b><i _for=\"x of y []z\"/>" ++
        "<em _slot=\"s\">é</em></b></p></a>")
    ∃ document root tree events, Document.parse source = .ok document ∧
      root ∈ document.descendants.map Prod.snd ∧
      build source root ["A", "B"] = .ok (tree, events) ∧
      (tree.walk.map fun construct =>
        (construct.kind.label, construct.children.map span)) =
        [("component", [⟨21, 83⟩]), ("if", [⟨33, 83⟩]),
          ("placeholder", [⟨58, 79⟩]),
          ("slot", [])] ∧
      ∀ construct ∈ tree.walk,
        ∃ element ∈ root :: root.descendants.map Prod.snd,
        BuiltFrom ⟨source, ["A", "B"], declaredName? root⟩ element construct ∧
          Encloses source element construct := by
  intro source
  have shape : (Document.parse source).map
      (fun document => document.elements.map fun root =>
        (build source root ["A", "B"]).map fun result =>
          result.1.walk.map fun construct =>
            (construct.kind.label, construct.children.map span)) =
        .ok [.ok [("component", [⟨21, 83⟩]), ("if", [⟨33, 83⟩]),
          ("placeholder", [⟨58, 79⟩]),
          ("slot", [])]] := by decide +kernel
  obtain ⟨document, parsed, built⟩ := Except.map_eq_ok.mp shape
  obtain ⟨root, rest, roots, built, _⟩ := List.map_eq_cons_iff.mp built
  obtain ⟨⟨tree, events⟩, built, walked⟩ := Except.map_eq_ok.mp built
  have member : root ∈ document.descendants.map Prod.snd := by
    rw [Document.descendants, roots, Element.walk_cons]
    exact List.mem_cons_self ..
  refine ⟨document, root, tree, events, parsed, member, built, walked, ?_⟩
  intro construct inside
  obtain ⟨element, below, made, _, _, encloses⟩ :=
    build_contracts built construct inside
  exact ⟨element, below, made, encloses document parsed member⟩

end Construct

end Stencil
