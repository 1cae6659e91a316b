import Stencil.Construct.Basic
import Stencil.Markup.Document

namespace Stencil

/-! Walks and listings visit the same nodes, so what holds throughout a tree
holds of all they visit. -/

namespace Walk

variable {α : Type} {below : α → List α} {size : α → Nat}
  {shrinks : ∀ item, total size (below item) < size item}

@[simp] theorem list_nil : Walk.list below size shrinks [] = [] := by
  rw [Walk.list]

theorem list_cons (item : α) (rest : List α) :
    Walk.list below size shrinks (item :: rest) =
      item :: Walk.list below size shrinks (below item ++ rest) := by
  rw [Walk.list]

theorem list_append (upper lower : List α) :
    Walk.list below size shrinks (upper ++ lower) =
      Walk.list below size shrinks upper ++
        Walk.list below size shrinks lower := by
  fun_induction Walk.list below size shrinks upper with
  | case1 => rfl
  | case2 item rest induction =>
      rw [List.cons_append, list_cons, List.cons_append, ← induction,
        List.append_assoc]

/-- What holds of the stack and passes from an item to what is below it holds of
all that is listed. -/
theorem forall_list {P : α → Prop}
    (pass : ∀ item, P item → ∀ inner ∈ below item, P inner) (stack : List α)
    (start : ∀ item ∈ stack, P item) :
    ∀ item ∈ Walk.list below size shrinks stack, P item := by
  fun_induction Walk.list below size shrinks stack with
  | case1 => exact start
  | case2 item rest induction =>
      have here : P item := start item (List.mem_cons_self ..)
      rintro other (_ | ⟨_, member⟩)
      · exact here
      · refine induction ?_ other member
        intro inner inside
        rcases List.mem_append.mp inside with under | beside
        · exact pass item here inner under
        · exact start inner (List.mem_cons_of_mem _ beside)

theorem mem_list_of_below {stack : List α} {item inner : α}
    (member : item ∈ Walk.list below size shrinks stack)
    (under : inner ∈ below item) :
    inner ∈ Walk.list below size shrinks stack := by
  fun_induction Walk.list below size shrinks stack with
  | case1 => cases member
  | case2 top rest induction =>
      rcases List.mem_cons.mp member with rfl | later
      · refine List.mem_cons_of_mem _ ?_
        rw [list_append]
        refine List.mem_append_left _ ?_
        obtain ⟨before, after, split⟩ := List.append_of_mem under
        rw [split, list_append, list_cons]
        exact List.mem_append_right _ (List.mem_cons_self ..)
      · exact List.mem_cons_of_mem _ (induction later)

theorem length_list (weight : ∀ item, size item = 1 + total size (below item))
    (stack : List α) :
    (Walk.list below size shrinks stack).length = total size stack := by
  fun_induction Walk.list below size shrinks stack with
  | case1 => rfl
  | case2 item rest induction =>
      rw [List.length_cons, induction, total_append, total, weight item]
      omega

end Walk

namespace Element

def node (element : Element) : Node :=
  .element element.tag element.tagSpan element.span element.children

theorem eq_node_of_element? {node : Node} {element : Element}
    (found : node.element? = some element) : node = element.node := by
  cases node <;> cases found
  rfl

theorem mem_among {element : Element} {nodes : List Node} :
    element ∈ among nodes ↔ element.node ∈ nodes := by
  unfold among
  rw [List.mem_filterMap]
  constructor
  · rintro ⟨node, member, found⟩
    rw [← eq_node_of_element? found]
    exact member
  · intro member
    exact ⟨element.node, member, rfl⟩

end Element

namespace Node

def children : Node → List Node
  | .element _ _ _ children => children
  | _ => []

inductive All (P : Node → Prop) : Node → Prop
  | intro {node : Node} (here : P node)
  (inside : ∀ child ∈ node.children, All P child) :
      All P node

theorem All.here {P : Node → Prop} {node : Node} (all : All P node) :
    P node := by
  cases all with
  | intro here _ => exact here

theorem All.inside {P : Node → Prop} {node : Node} (all : All P node) :
    ∀ child ∈ node.children, All P child := by
  cases all with
  | intro _ inside => exact inside

theorem mem_forestListing {depth : Nat} {nodes : List Node}
    {entry : Nat × Node} :
    entry ∈ forestListing depth nodes ↔ ∃ node ∈ nodes,
    entry ∈ node.listing depth := by
  induction nodes with
  | nil => simp [forestListing]
  | cons node rest induction => simp [forestListing, induction]

theorem listing_eq (node : Node) (depth : Nat) :
    node.listing depth =
      (depth, node) :: forestListing (depth + 1) node.children := by
  cases node <;> simp [listing, children, forestListing]

mutual
theorem mem_listing_of_child (node : Node) {depth : Nat} {entry : Nat × Node}
    {child : Node} (member : entry ∈ node.listing depth)
    (inside : child ∈ entry.2.children) :
    (entry.1 + 1, child) ∈ node.listing depth := by
  cases node with
  | element tag tagSpan span children =>
      rw [listing_eq] at member ⊢
      refine List.mem_cons_of_mem _ ?_
      rcases List.mem_cons.mp member with rfl | below
      · refine mem_forestListing.mpr ⟨child, inside, ?_⟩
        rw [listing_eq]
        exact List.mem_cons_self ..
      · exact mem_forestListing_of_child children below inside
  | text | comment | doctype =>
      obtain rfl := List.mem_singleton.mp member
      cases inside

theorem mem_forestListing_of_child (nodes : List Node) {depth : Nat}
    {entry : Nat × Node} {child : Node}
    (member : entry ∈ forestListing depth nodes)
    (inside : child ∈ entry.2.children) :
    (entry.1 + 1, child) ∈ forestListing depth nodes := by
  cases nodes with
  | nil => cases member
  | cons node rest =>
      rw [forestListing] at member ⊢
      rcases List.mem_append.mp member with here | behind
      · exact List.mem_append_left _ (mem_listing_of_child node here inside)
      · exact List.mem_append_right _ (mem_forestListing_of_child rest behind
          inside)
end

theorem All.of_listing {P : Node → Prop} {node : Node} (all : All P node) :
    ∀ depth, ∀ entry ∈ node.listing depth, P entry.2 := by
  induction all with
  | intro here _ induction =>
      intro depth entry member
      rw [listing_eq] at member
      rcases List.mem_cons.mp member with rfl | below
      · exact here
      · obtain ⟨child, inside, member⟩ := mem_forestListing.mp below
        exact induction child inside (depth + 1) entry member

end Node

namespace Element

@[simp] theorem walk_nil (depth : Nat) : walk depth [] = [] := by
  simp [walk]

theorem walk_cons (depth : Nat) (element : Element) (rest : List Element) :
    walk depth (element :: rest) =
      (depth, element) :: (walk (depth + 1) element.elements ++
        walk depth rest) := by
  unfold walk
  rw [List.map_cons, Walk.list_cons, Walk.list_append]

theorem mem_walk_of_descendant {depth : Nat} {elements : List Element}
    {outer inner : Element}
    (member : outer ∈ (walk depth elements).map Prod.snd)
    (below : inner ∈ outer.descendants.map Prod.snd) :
    inner ∈ (walk depth elements).map Prod.snd := by
  obtain ⟨entry, listed, rfl⟩ := List.mem_map.mp below
  have step : ∀ item : Nat × Element,
      item.2 ∈ (walk depth elements).map Prod.snd →
      ∀ child ∈ item.2.elements,
        child ∈ (walk depth elements).map Prod.snd := by
    intro item member child inside
    obtain ⟨⟨level, element⟩, walked, same⟩ := List.mem_map.mp member
    obtain rfl : element = item.2 := same
    exact List.mem_map.mpr ⟨(level + 1, child),
      Walk.mem_list_of_below walked (List.mem_map.mpr ⟨child, inside, rfl⟩),
      rfl⟩
  unfold descendants at listed
  refine Walk.forall_list (P := fun item : Nat × Element =>
    item.2 ∈ (walk depth elements).map Prod.snd) ?_ _ ?_ _ listed
  · rintro item walked inner under
    obtain ⟨child, inside, rfl⟩ := List.mem_map.mp under
    exact step item walked child inside
  · intro item under
    obtain ⟨child, inside, rfl⟩ := List.mem_map.mp under
    exact step (0, outer) member child inside

/-- What holds throughout some nodes holds throughout every element that is
walked from them. -/
theorem all_of_walk {P : Node → Prop} {nodes : List Node}
    (all : ∀ node ∈ nodes, node.All P) {depth : Nat} {entry : Nat × Element}
    (member : entry ∈ walk depth (among nodes)) :
    entry.2.node.All P := by
  unfold walk at member
  refine Walk.forall_list (P := fun entry : Nat × Element => entry.2.node.All P)
    ?_ _ ?_ _ member
  · rintro ⟨level, outer⟩ holds inner inside
    obtain ⟨child, member, rfl⟩ := List.mem_map.mp inside
    exact holds.inside _ (mem_among.mp member)
  · intro item inside
    obtain ⟨element, member, rfl⟩ := List.mem_map.mp inside
    exact all _ (mem_among.mp member)

end Element

namespace Construct

variable {root construct inner : Construct}

theorem mem_walk_self (root : Construct) : root ∈ root.walk := by
  unfold walk
  rw [Walk.list_cons]
  exact List.mem_cons_self ..

theorem walk_eq (root : Construct) :
    root.walk = root :: root.children.flatMap walk := by
  unfold walk
  rw [Walk.list_cons, List.append_nil]
  congr 1
  generalize root.children = children
  induction children with
  | nil => rw [Walk.list_nil, List.flatMap_nil]
  | cons child rest induction =>
      rw [← List.singleton_append, Walk.list_append, induction,
        List.singleton_append, List.flatMap_cons]

theorem mem_walk_of_child {child : Construct} (inside : child ∈ root.children)
    (member : inner ∈ child.walk) : inner ∈ root.walk := by
  obtain ⟨before, after, split⟩ := List.append_of_mem inside
  unfold walk at member ⊢
  rw [Walk.list_cons, List.append_nil, split, Walk.list_append]
  refine List.mem_cons_of_mem _ (List.mem_append_right _ ?_)
  rw [← List.singleton_append, Walk.list_append]
  exact List.mem_append_left _ member

theorem children_induction {motive : Construct → Prop}
    (pass : ∀ root, (∀ child ∈ root.children, motive child) → motive root)
    (root : Construct) :
    motive root := by
  induction size : sizeOf root using Nat.strongRecOn generalizing root with
  | ind count induction =>
      refine pass root fun child inside => induction (sizeOf child) ?_ child rfl
      obtain ⟨kind, id, span, html, runs, children⟩ := root
      have smaller : sizeOf child < sizeOf children :=
        List.sizeOf_lt_of_mem inside
      simp only [Construct.mk.sizeOf_spec] at size
      omega

theorem walk_induction
    {motive : (root : Construct) → construct ∈ root.walk → Prop}
    (here : motive construct (mem_walk_self construct))
    (pass : ∀ root child (inside : child ∈ root.children)
      (below : construct ∈ child.walk),
      motive child below → motive root (mem_walk_of_child inside below))
    (root : Construct) (member : construct ∈ root.walk) :
    motive root member := by
  induction root using children_induction with
  | pass root induction =>
      have cases := member
      rw [walk_eq] at cases
      rcases List.mem_cons.mp cases with rfl | below
      · exact here
      · obtain ⟨child, inside, under⟩ := List.mem_flatMap.mp below
        exact pass root child inside under (induction child inside under)

theorem mem_walk_of_walk (member : construct ∈ root.walk)
    (below : inner ∈ construct.walk) :
    inner ∈ root.walk := by
  induction root, member using walk_induction with
  | here => exact below
  | pass root child inside _ induction =>
      exact mem_walk_of_child inside induction

theorem length_walk (root : Construct) :
    root.walk.length = 1 + forestSize root.children := by
  unfold walk
  rw [Walk.length_list]
  · obtain ⟨kind, id, span, html, runs, children⟩ := root
    rw [Walk.total, Walk.total, size, Nat.add_zero]
  · rintro ⟨kind, id, span, html, runs, children⟩
    rw [size, forestSize_eq_total]

theorem forall_walk {P : Construct → Prop}
    (pass : ∀ construct, P construct → ∀ child ∈ construct.children, P child)
    (here : P root) :
    ∀ construct ∈ root.walk, P construct := by
  refine Walk.forall_list pass _ ?_
  simpa using here

end Construct

end Stencil
