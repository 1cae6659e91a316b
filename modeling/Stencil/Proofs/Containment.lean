import Stencil.Proofs.Geometry

namespace Stencil

/-! One element lies inside the span of another exactly where it is below it in
the tree. -/

namespace Node

def descend? (node : Node) : List Nat → Option Node
  | [] => some node
  | index :: path => node.children[index]?.bind fun child => child.descend? path

theorem descend?_cons {node inner : Node} {index : Nat} {path : List Nat} :
    node.descend? (index :: path) = some inner ↔
      ∃ child, node.children[index]? = some child ∧
        child.descend? path = some inner := by
  rw [descend?, Option.bind_eq_some_iff]

theorem descend?_append (node : Node) (path more : List Nat) :
    node.descend? (path ++ more) = (node.descend? path).bind fun inner =>
      inner.descend? more := by
  induction path generalizing node with
  | nil => rfl
  | cons index path induction =>
      rw [List.cons_append, descend?, descend?]
      cases node.children[index]? with
      | none => rfl
      | some child => exact induction child

theorem All.descend {P : Node → Prop} {node inner : Node} {path : List Nat}
    (all : node.All P) (found : node.descend? path = some inner) :
    inner.All P := by
  induction path generalizing node with
  | nil =>
      obtain rfl := Option.some.inj found
      exact all
  | cons index path induction =>
      obtain ⟨child, here, found⟩ := descend?_cons.mp found
      exact induction (all.inside child (List.mem_of_getElem? here)) found

section Spans

variable {source : Source} {tokens : List Token}
  {node first second inner : Node} {firstPath secondPath path : List Nat}

theorem Placed.start_lt_of_child (placed : node.Placed source tokens)
    {child : Node} (inside : child ∈ node.children) :
    node.span.start < child.span.start := by
  cases node with
  | element tag tagSpan span children =>
      have here := placed.element _ rfl
      have after := (here.children_within child inside).1
      have start : tagSpan.start = span.start := here.start
      have tagged : tagSpan.start < tagSpan.stop := here.tagged
      calc
        span.start = tagSpan.start := start.symm
        _ < tagSpan.stop := tagged
        _ ≤ child.span.start := after
  | text | comment | doctype => cases inside

theorem All.covers_descend (all : node.All (Node.Placed source tokens))
    (found : node.descend? path = some inner) :
    node.span.covers inner.span := by
  induction path generalizing node with
  | nil =>
      obtain rfl := Option.some.inj found
      simp [Span.covers]
  | cons index path induction =>
      obtain ⟨child, here, found⟩ := descend?_cons.mp found
      have inside := List.mem_of_getElem? here
      exact Span.covers_trans (all.here.children_within child inside)
        (induction (all.inside child inside) found)

theorem same_place_of_covers {nodes : List Node}
    (apart : nodes.Pairwise fun left right => left.span.stop ≤ right.span.start)
    (all : ∀ node ∈ nodes, node.All (Node.Placed source tokens))
    {left right : Node} {firstIndex secondIndex : Nat}
    (leftAt : nodes[firstIndex]? = some left)
    (rightAt : nodes[secondIndex]? = some right)
    (firstAt : left.descend? firstPath = some first)
    (secondAt : right.descend? secondPath = some second)
    (covers : first.span.covers second.span) :
    firstIndex = secondIndex := by
  have leftAll := all left (List.mem_of_getElem? leftAt)
  have rightAll := all right (List.mem_of_getElem? rightAt)
  have inLeft := Span.covers_iff.mp (leftAll.covers_descend firstAt)
  have inRight := Span.covers_iff.mp (rightAll.covers_descend secondAt)
  have nonempty := (rightAll.descend secondAt).here.nonempty
  have within := Span.covers_iff.mp covers
  obtain ⟨firstBound, rfl⟩ := List.getElem?_eq_some_iff.mp leftAt
  obtain ⟨secondBound, rfl⟩ := List.getElem?_eq_some_iff.mp rightAt
  rcases Nat.lt_trichotomy firstIndex secondIndex with before | same | behind
  · have := List.pairwise_iff_getElem.mp apart _ _ firstBound secondBound before
    omega
  · exact same
  · have := List.pairwise_iff_getElem.mp apart _ _ secondBound firstBound behind
    omega

/-- In one tree, a node that lies inside another one is at or below it. -/
theorem All.prefix_of_covers (all : node.All (Node.Placed source tokens))
    (firstAt : node.descend? firstPath = some first)
    (secondAt : node.descend? secondPath = some second)
    (covers : first.span.covers second.span) :
    firstPath <+: secondPath := by
  induction firstPath generalizing node secondPath with
  | nil => exact List.nil_prefix
  | cons firstIndex firstPath induction =>
      obtain ⟨left, leftAt, firstAt⟩ := descend?_cons.mp firstAt
      have inside := List.mem_of_getElem? leftAt
      cases secondPath with
      | nil =>
          obtain rfl := Option.some.inj secondAt
          have later := all.here.start_lt_of_child inside
          have inLeft :=
            Span.covers_iff.mp ((all.inside left inside).covers_descend firstAt)
          have within := Span.covers_iff.mp covers
          omega
      | cons secondIndex secondPath =>
          obtain ⟨right, rightAt, secondAt⟩ := descend?_cons.mp secondAt
          obtain rfl :=
            same_place_of_covers all.here.children_pairwise all.inside leftAt
              rightAt
            firstAt secondAt covers
          obtain rfl := Option.some.inj (leftAt.symm.trans rightAt)
          exact List.cons_prefix_cons.mpr
            ⟨rfl, induction (all.inside left inside) firstAt secondAt⟩

end Spans

end Node

namespace Element

theorem node_inj {first second : Element} (same : first.node = second.node) :
    first = second := by
  cases first
  cases second
  cases same
  rfl

theorem mem_elements_iff {outer inner : Element} :
    inner ∈ outer.elements ↔ inner.node ∈ outer.node.children :=
  mem_among

theorem mem_walk_of_mem {elements : List Element} {element : Element}
    (member : element ∈ elements) (depth : Nat) :
    element ∈ (walk depth elements).map Prod.snd := by
  induction elements with
  | nil => cases member
  | cons first rest induction =>
      rw [walk_cons, List.map_cons, List.map_append]
      rcases List.mem_cons.mp member with rfl | later
      · exact List.mem_cons_self ..
      · exact List.mem_cons_of_mem _ (List.mem_append_right _ (induction later))

theorem mem_descendants_iff {outer inner : Element} :
    inner ∈ outer.descendants.map Prod.snd ↔
      ∃ path, path ≠ [] ∧ outer.node.descend? path = some inner.node := by
  constructor
  · intro member
    obtain ⟨entry, listed, rfl⟩ := List.mem_map.mp member
    refine Walk.forall_list (P := fun item : Nat × Element =>
      ∃ path, path ≠ [] ∧
        outer.node.descend? path = some item.2.node) ?_ _ ?_ entry listed
    · rintro item ⟨path, _, found⟩ inner under
      obtain ⟨child, inside, rfl⟩ := List.mem_map.mp under
      obtain ⟨index, here⟩ :=
        List.mem_iff_getElem?.mp (mem_elements_iff.mp inside)
      refine ⟨path ++ [index], by simp, ?_⟩
      rw [Node.descend?_append, found, Option.bind_some]
      exact Node.descend?_cons.mpr ⟨child.node, here, rfl⟩
    · intro item under
      obtain ⟨child, inside, rfl⟩ := List.mem_map.mp under
      obtain ⟨index, here⟩ :=
        List.mem_iff_getElem?.mp (mem_elements_iff.mp inside)
      exact ⟨[index], by simp, Node.descend?_cons.mpr ⟨child.node, here, rfl⟩⟩
  · rintro ⟨path, some, found⟩
    induction path generalizing outer with
    | nil => exact absurd rfl some
    | cons index path induction =>
        obtain ⟨child, here, found⟩ := Node.descend?_cons.mp found
        have inside := List.mem_of_getElem? here
        cases path with
        | nil =>
            obtain rfl := Option.some.inj found
            exact mem_walk_of_mem (mem_elements_iff.mpr inside) 1
        | cons next path =>
            cases child with
            | element tag tagSpan span children =>
                let middle : Element := ⟨tag, tagSpan, span, children⟩
                have listed : middle ∈ outer.descendants.map Prod.snd :=
                  mem_walk_of_mem (mem_elements_iff.mpr inside) 1
                have deeper : inner ∈ middle.descendants.map Prod.snd :=
                  induction (by simp) found
                exact mem_walk_of_descendant listed deeper
            | text | comment | doctype => cases found

end Element

namespace Document

def elementAt? (document : Document) : List Nat → Option Element
  | [] => none
  | index :: path =>
      (document.nodes[index]?.bind fun node => node.descend? path).bind
        Node.element?

theorem elementAt?_eq_some {document : Document} {path : List Nat}
    {element : Element} :
    document.elementAt? path = some element ↔
      ∃ index rest node, path = index :: rest ∧
        document.nodes[index]? = some node ∧
        node.descend? rest = some element.node := by
  cases path with
  | nil => simp [elementAt?]
  | cons index rest =>
      simp only [elementAt?, Option.bind_eq_some_iff]
      constructor
      · rintro ⟨inner, ⟨node, here, found⟩, same⟩
        rw [Element.eq_node_of_element? same] at found
        exact ⟨index, rest, node, rfl, here, found⟩
      · rintro ⟨_, _, node, ⟨⟩, here, found⟩
        exact ⟨element.node, ⟨node, here, found⟩, rfl⟩

section Ancestry

variable {source : Source} {document : Document}
  {outerPath innerPath : List Nat} {outer inner : Element}

theorem mem_descendants_of_begins
    (outerAt : document.elementAt? outerPath = some outer)
    (innerAt : document.elementAt? innerPath = some inner)
    (further : outerPath <+: innerPath) :
    inner = outer ∨ inner ∈ outer.descendants.map Prod.snd := by
  obtain ⟨index, path, node, rfl, here, outerAt⟩ :=
    elementAt?_eq_some.mp outerAt
  obtain ⟨more, rfl⟩ := further
  rw [List.cons_append] at innerAt
  obtain ⟨_, _, same, ⟨⟩, sameHere, innerAt⟩ := elementAt?_eq_some.mp innerAt
  obtain rfl := Option.some.inj (here.symm.trans sameHere)
  rw [Node.descend?_append, outerAt, Option.bind_some] at innerAt
  by_cases none : more = []
  · subst none
    left
    have nodes : outer.node = inner.node := Option.some.inj innerAt
    exact (Element.node_inj nodes).symm
  · exact .inr (Element.mem_descendants_iff.mpr ⟨more, none, innerAt⟩)

variable (parsed : parse source = .ok document)
include parsed

theorem all_of_elementAt? {path : List Nat} {element : Element}
    (found : document.elementAt? path = some element) :
    ∃ tokens, element.node.All (Node.Placed source tokens) := by
  obtain ⟨tokens, _, _, all⟩ := parse_places parsed
  obtain ⟨index, rest, node, _, here, found⟩ := elementAt?_eq_some.mp found
  exact ⟨tokens, (all node (List.mem_of_getElem? here)).descend found⟩

theorem contains_of_mem_descendants
    (outerAt : document.elementAt? outerPath = some outer)
    (inside : inner = outer ∨ inner ∈ outer.descendants.map Prod.snd) :
    outer.contains inner := by
  obtain ⟨tokens, all⟩ := all_of_elementAt? parsed outerAt
  rcases inside with rfl | member
  · exact all.covers_descend
      (show inner.node.descend? [] = some inner.node from rfl)
  · obtain ⟨path, _, found⟩ := Element.mem_descendants_iff.mp member
    exact all.covers_descend found

theorem prefix_of_contains
    (outerAt : document.elementAt? outerPath = some outer)
    (innerAt : document.elementAt? innerPath = some inner)
    (contains : outer.contains inner) :
    outerPath <+: innerPath := by
  obtain ⟨tokens, _, tiles, all⟩ := parse_places parsed
  obtain ⟨index, path, node, rfl, here, outerAt⟩ :=
    elementAt?_eq_some.mp outerAt
  obtain ⟨other, more, next, rfl, there, innerAt⟩ :=
    elementAt?_eq_some.mp innerAt
  obtain rfl := Node.same_place_of_covers tiles.pairwise all here there outerAt
    innerAt contains
  obtain rfl := Option.some.inj (here.symm.trans there)
  exact List.cons_prefix_cons.mpr
    ⟨rfl, (all node (List.mem_of_getElem? here)).prefix_of_covers outerAt
      innerAt contains⟩

end Ancestry

/-- In a document an element lies inside the span of another one exactly where
it is that element or below it, and then the path to it goes on from there. No
two elements have one span. -/
theorem parse_contains_iff {source : Source} {document : Document}
    (parsed : parse source = .ok document) {outerPath innerPath : List Nat}
    {outer inner : Element}
    (outerAt : document.elementAt? outerPath = some outer)
    (innerAt : document.elementAt? innerPath = some inner) :
    (outer.contains inner ↔
      inner = outer ∨ inner ∈ outer.descendants.map Prod.snd) ∧
    (outer.contains inner ↔ outerPath <+: innerPath) ∧
    (outerPath ≠ innerPath → outer.span ≠ inner.span) := by
  have further := prefix_of_contains parsed outerAt innerAt
  have inside := mem_descendants_of_begins outerAt innerAt
  have contained : _ → outer.contains inner :=
    contains_of_mem_descendants parsed outerAt
  refine ⟨⟨fun contains => inside (further contains), contained⟩,
    ⟨further, fun longer => contained (inside longer)⟩, ?_⟩
  intro apart same
  have back : innerPath <+: outerPath := by
    apply prefix_of_contains parsed innerAt outerAt
    rw [Element.contains, same]
    exact Span.covers_iff.mpr ⟨Nat.le_refl _, Nat.le_refl _⟩
  have forth : outerPath <+: innerPath := by
    apply further
    rw [Element.contains, same]
    exact Span.covers_iff.mpr ⟨Nat.le_refl _, Nat.le_refl _⟩
  exact apart (forth.eq_of_length_le back.length_le)

/-- A paragraph that is left open ends where the element around it ends, and a
void element ends where the next one begins. -/
theorem parse_contains_iff_unclosed :
    let source := Source.ofText "<div><p>é<br></div><br><hr>"
    ∃ document div paragraph inside behind, parse source = .ok document ∧
      document.elementAt? [0] = some div ∧
      document.elementAt? [0, 0] = some paragraph ∧
      document.elementAt? [0, 0, 1] = some inside ∧
      document.elementAt? [1] = some behind ∧
      [div, paragraph, inside, behind].map Element.span =
        [⟨0, 20⟩, ⟨5, 14⟩, ⟨10, 14⟩, ⟨20, 24⟩] ∧
      inside ∈ paragraph.descendants.map Prod.snd ∧ ¬ paragraph.contains div ∧
      behind ∉ div.descendants.map Prod.snd := by
  intro source
  have shape : (parse source).map (fun document =>
      [[0], [0, 0], [0, 0, 1], [1]].map fun path =>
        (document.elementAt? path).map Element.span) =
        .ok [some ⟨0, 20⟩, some ⟨5, 14⟩, some ⟨10, 14⟩, some ⟨20, 24⟩] := by
    decide +kernel
  obtain ⟨document, parsed, shape⟩ := Except.map_eq_ok.mp shape
  simp only [List.map_cons, List.map_nil, List.cons.injEq,
    Option.map_eq_some_iff] at shape
  obtain ⟨⟨div, divAt, divSpan⟩, ⟨paragraph, paragraphAt, paragraphSpan⟩,
    ⟨inside, insideAt, insideSpan⟩, ⟨behind, behindAt, behindSpan⟩, _⟩ := shape
  have within : paragraph.contains inside := by
    rw [Element.contains, paragraphSpan, insideSpan]
    decide
  have outside : ¬ div.contains behind := by
    rw [Element.contains, divSpan, behindSpan]
    decide
  refine ⟨document, div, paragraph, inside, behind, parsed, divAt, paragraphAt,
    insideAt, behindAt,
    by simp [divSpan, paragraphSpan, insideSpan, behindSpan], ?_, ?_, ?_⟩
  · rcases (parse_contains_iff parsed paragraphAt insideAt).1.mp
      within with same | member
    · rw [same, paragraphSpan] at insideSpan
      exact absurd insideSpan (by decide)
    · exact member
  · rw [(parse_contains_iff parsed paragraphAt divAt).2.1]
    decide
  · exact fun member =>
      outside ((parse_contains_iff parsed divAt behindAt).1.mpr (.inr member))

end Document

end Stencil
