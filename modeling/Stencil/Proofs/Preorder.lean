import Mathlib.Data.List.Basic
import Stencil.Proofs.Trees

namespace Stencil

/-! A walk that keeps a stack visits a forest as the recursive listing does. The
places of a forest are paths of child numbers; in the order of the paths, each
place comes before those below it, and these come before the places to its
right. -/

namespace Walk

variable {α : Type} {below : α → List α} {size : α → Nat}
  {shrinks : ∀ item, total size (below item) < size item}

section Stack

variable (below)

/-- Takes the top off a stack, which is its last item, and puts what is below
that item in its place, the first on top. -/
def next (stack : List α) : Option (α × List α) :=
  stack.getLast?.map fun item => (item, stack.dropLast ++ (below item).reverse)

/-- Taking the top off a stack again and again gives these items and then no
more. -/
inductive Drains : List α → List α → Prop
  | done {stack : List α} (empty : next below stack = none) : Drains stack []
  | more {stack rest items : List α} {item : α}
      (taken : next below stack = some (item, rest))
      (later : Drains rest items) : Drains stack (item :: items)

end Stack

theorem drains_list (stack : List α) :
    Drains below stack.reverse (list below size shrinks stack) := by
  fun_induction list below size shrinks stack with
  | case1 => exact .done rfl
  | case2 item rest induction =>
      rw [List.reverse_append] at induction
      refine .more ?_ induction
      rw [next, List.reverse_cons, List.getLast?_concat, List.dropLast_concat,
        Option.map_some]

def at? (below : α → List α) : List α → List Nat → Option α
  | _, [] => none
  | items, [index] => items[index]?
  | items, index :: inner :: path =>
      items[index]?.bind fun item => at? below (below item) (inner :: path)

theorem at?_cons_zero (item : α) (rest : List α) (path : List Nat) :
    at? below (item :: rest) (0 :: path) =
      if path = [] then some item else at? below (below item) path := by
  cases path <;> simp [at?]

theorem at?_cons_succ (item : α) (rest : List α) (index : Nat)
    (path : List Nat) :
    at? below (item :: rest) ((index + 1) :: path) =
      at? below rest (index :: path) := by
  cases path <;> simp [at?]

/-- These are the places of a forest, each once and in their order. -/
structure ArePlaces (below : α → List α) (items : List α)
    (places : List (List Nat)) : Prop where
  ordered : places.Pairwise (· < ·)
  mem_iff : ∀ place, place ∈ places ↔ (at? below items place).isSome

def shift : List Nat → List Nat
  | [] => []
  | index :: path => (index + 1) :: path

theorem shift_lt_shift {left right : List Nat} (less : left < right) :
    shift left < shift right := by
  cases right with
  | nil => exact absurd less (List.not_lt_nil _)
  | cons last rights =>
      cases left with
      | nil => exact List.nil_lt_cons _ _
      | cons first lefts =>
          rw [shift, shift, List.cons_lt_cons_iff, Nat.add_lt_add_iff_right,
            Nat.add_right_cancel_iff]
          exact List.cons_lt_cons_iff.mp less

namespace ArePlaces

variable {item : α} {items rest : List α}
  {places inner others : List (List Nat)}

theorem exists_cons (all : ArePlaces below items places) {place : List Nat}
    (member : place ∈ places) : ∃ index path, place = index :: path := by
  refine List.exists_cons_of_ne_nil ?_
  rintro rfl
  cases (all.mem_iff []).mp member

theorem zero_lt_shift (beside : ArePlaces below rest others) (path : List Nat) :
    ∀ other ∈ others, 0 :: path < shift other := by
  intro other member
  obtain ⟨index, path, rfl⟩ := beside.exists_cons member
  rw [shift, List.cons_lt_cons_iff]
  exact .inl (Nat.succ_pos index)

theorem ordered_cons (inside : ArePlaces below (below item) inner)
    (beside : ArePlaces below rest others) :
    ([0] :: (inner.map (0 :: ·) ++ others.map shift)).Pairwise (· < ·) := by
  refine .cons ?_ (List.pairwise_append.mpr ⟨?_, ?_, ?_⟩)
  · intro place member
    rcases List.mem_append.mp member with under | behind
    · obtain ⟨path, listed, rfl⟩ := List.mem_map.mp under
      obtain ⟨index, path, rfl⟩ := inside.exists_cons listed
      exact List.cons_lt_cons_iff.mpr (.inr ⟨rfl, List.nil_lt_cons _ _⟩)
    · obtain ⟨other, listed, rfl⟩ := List.mem_map.mp behind
      exact beside.zero_lt_shift [] other listed
  · refine List.pairwise_map.mpr (inside.ordered.imp fun less => ?_)
    exact List.cons_lt_cons_iff.mpr (.inr ⟨rfl, less⟩)
  · exact List.pairwise_map.mpr (beside.ordered.imp shift_lt_shift)
  · intro left leftMember right rightMember
    obtain ⟨path, _, rfl⟩ := List.mem_map.mp leftMember
    obtain ⟨other, listed, rfl⟩ := List.mem_map.mp rightMember
    exact beside.zero_lt_shift path other listed

theorem mem_cons_iff (inside : ArePlaces below (below item) inner)
    (beside : ArePlaces below rest others) (place : List Nat) :
    place ∈ [0] :: (inner.map (0 :: ·) ++ others.map shift) ↔
      (at? below (item :: rest) place).isSome := by
  have shifted : ∀ path, path ∈ others.map shift ↔
      ∃ index rest, index :: rest ∈ others ∧ path = (index + 1) :: rest := by
    intro path
    rw [List.mem_map]
    constructor
    · rintro ⟨other, listed, rfl⟩
      obtain ⟨index, path, rfl⟩ := beside.exists_cons listed
      exact ⟨index, path, listed, rfl⟩
    · rintro ⟨index, rest, listed, rfl⟩
      exact ⟨_, listed, rfl⟩
  rw [List.mem_cons, List.mem_append, shifted, List.mem_map]
  rcases place with _ | ⟨_ | index, path⟩
  · simp [at?]
  · rw [at?_cons_zero]
    by_cases none : path = []
    · simp [none]
    · simp [none, inside.mem_iff]
  · rw [at?_cons_succ, ← beside.mem_iff]
    simp

theorem cons (inside : ArePlaces below (below item) inner)
    (beside : ArePlaces below rest others) :
    ArePlaces below (item :: rest)
      ([0] :: (inner.map (0 :: ·) ++ others.map shift)) :=
  ⟨inside.ordered_cons beside, inside.mem_cons_iff beside⟩

end ArePlaces

/-- A walk goes through the places of a forest in their order. -/
theorem exists_places_list (items : List α) :
    ∃ places, ArePlaces below items places ∧
      (list below size shrinks items).map some =
        places.map (at? below items) := by
  induction weight : total size items using Nat.strongRecOn
    generalizing items with
  | ind bound induction =>
      cases items with
      | nil =>
          refine ⟨[], ⟨.nil, fun place => ?_⟩, by simp⟩
          rcases place with _ | ⟨index, _ | ⟨inner, path⟩⟩ <;> simp [at?]
      | cons item rest =>
          have lighter := shrinks item
          rw [total] at weight
          obtain ⟨inner, inside, innerList⟩ :=
            induction _ (by omega) (below item) rfl
          obtain ⟨others, beside, othersList⟩ := induction _ (by omega) rest rfl
          refine ⟨_, inside.cons beside, ?_⟩
          rw [list_cons, list_append, List.map_cons, List.map_append, innerList,
            othersList, List.map_cons, List.map_append, List.map_map,
            List.map_map]
          congr 2
          · refine List.map_congr_left fun path listed => ?_
            obtain ⟨index, path, rfl⟩ := inside.exists_cons listed
            rw [Function.comp_apply, at?_cons_zero,
              if_neg (List.cons_ne_nil _ _)]
          · refine List.map_congr_left fun path listed => ?_
            obtain ⟨index, path, rfl⟩ := beside.exists_cons listed
            exact (at?_cons_succ item rest index path).symm

end Walk

namespace Element

def deeper (entry : Nat × Element) : List (Nat × Element) :=
  entry.2.elements.map fun child => (entry.1 + 1, child)

def listed? (entry : Nat × Node) : Option (Nat × Element) :=
  entry.2.element?.map fun element => (entry.1, element)

theorem drains_walk (depth : Nat) (elements : List Element) :
    Walk.Drains deeper (elements.map fun element => (depth, element)).reverse
      (walk depth elements) :=
  Walk.drains_list _

theorem walk_append (depth : Nat) (left right : List Element) :
    walk depth (left ++ right) = walk depth left ++ walk depth right := by
  unfold walk
  rw [List.map_append, Walk.list_append]

theorem among_cons (node : Node) (rest : List Node) :
    among (node :: rest) = node.element?.toList ++ among rest := by
  unfold among
  cases node <;> rfl

theorem at?_deeper (depth : Nat) (elements : List Element) (place : List Nat) :
    Walk.at? deeper (elements.map fun element => (depth + 1, element)) place =
      (Walk.at? Element.elements elements place).map fun element =>
        (depth + place.length, element) := by
  induction place generalizing depth elements with
  | nil => rfl
  | cons index path induction =>
      cases path with
      | nil => simp [Walk.at?]
      | cons inner path =>
          simp only [Walk.at?, List.getElem?_map]
          cases elements[index]? with
          | none => rfl
          | some element =>
              have length : depth + 1 + (inner :: path).length =
                  depth + (index :: inner :: path).length := by
                simp only [List.length_cons]
                omega
              rw [← length]
              exact induction (depth + 1) element.elements

theorem exists_places_walk (elements : List Element) :
    ∃ places, Walk.ArePlaces Element.elements elements places ∧
      (walk 1 elements).map some = places.map fun place =>
        (Walk.at? Element.elements elements place).map fun element =>
          (place.length, element) := by
  have here :
      ∀ place, Walk.at? deeper (elements.map fun element => (1, element))
        place =
      (Walk.at? Element.elements elements place).map fun element =>
        (place.length, element) := by
    intro place
    simpa using at?_deeper 0 elements place
  obtain ⟨places, all, found⟩ : ∃ places,
      Walk.ArePlaces deeper (elements.map fun element => (1, element)) places ∧
        (walk 1 elements).map some = places.map (Walk.at? deeper _) :=
    Walk.exists_places_list _
  refine ⟨places, ⟨all.ordered, fun place => ?_⟩, ?_⟩
  · rw [all.mem_iff, here, Option.isSome_map]
  · rw [found]
    exact List.map_congr_left fun place _ => here place

mutual
theorem filterMap_listing (depth : Nat) (node : Node) :
    (node.listing depth).filterMap listed? =
      walk depth node.element?.toList := by
  cases node with
  | element tag tagSpan span children =>
      rw [Node.listing, List.filterMap_cons]
      simp only [listed?, Node.element?, Option.map_some, Option.toList_some]
      rw [walk_cons, walk_nil, List.append_nil]
      congr 1
      exact filterMap_forestListing (depth + 1) children
  | text | comment | doctype => simp [Node.listing, listed?, Node.element?]

theorem filterMap_forestListing (depth : Nat) (nodes : List Node) :
    (Node.forestListing depth nodes).filterMap listed? =
      walk depth (among nodes) := by
  cases nodes with
  | nil => simp [Node.forestListing, among]
  | cons node rest =>
      rw [Node.forestListing, List.filterMap_append,
        filterMap_listing depth node, filterMap_forestListing depth rest,
        among_cons, walk_append]
end

end Element

namespace Construct

theorem forestListing_eq (depth : Nat) (constructs : List Construct) :
    forestListing depth constructs = constructs.flatMap (listing depth) := by
  induction constructs with
  | nil => rfl
  | cons construct rest induction =>
      rw [forestListing, induction, List.flatMap_cons]

theorem map_listing (construct : Construct) (depth : Nat) :
    (construct.listing depth).map Prod.snd = construct.walk := by
  induction construct using children_induction generalizing depth with
  | pass root induction =>
      have inside : (forestListing (depth + 1) root.children).map Prod.snd =
          root.children.flatMap walk := by
        rw [forestListing_eq, List.map_flatMap]
        exact List.flatMap_congr fun child member =>
          induction child member (depth + 1)
      rw [walk_eq, ← inside]
      obtain ⟨kind, id, span, html, runs, children⟩ := root
      rw [listing, List.map_cons]

end Construct

/-- A walk with a stack ends, and finds what the recursive listing holds: from a
forest of nodes its elements, each once, in pre-order, at a depth that is the
length of the path to it; and from a construct all constructs of its tree, each
once and in pre-order. -/
theorem walks_in_preorder :
    (∀ nodes : List Node,
      Walk.Drains Element.deeper
        ((Element.among nodes).map fun element => (1, element)).reverse
        (Element.walk 1 (Element.among nodes)) ∧
      Element.walk 1 (Element.among nodes) =
        (Node.forestListing 1 nodes).filterMap Element.listed? ∧
      ∃ places, Walk.ArePlaces Element.elements (Element.among nodes) places ∧
        (Element.walk 1 (Element.among nodes)).map some =
          places.map fun place =>
            (Walk.at? Element.elements (Element.among nodes) place).map
              fun element => (place.length, element)) ∧
    ∀ construct : Construct,
      Walk.Drains Construct.children [construct] construct.walk ∧
      construct.walk = (construct.listing 0).map Prod.snd ∧
      ∃ places, Walk.ArePlaces Construct.children [construct] places ∧
        construct.walk.map some =
          places.map (Walk.at? Construct.children [construct]) := by
  constructor
  · intro nodes
    exact ⟨Element.drains_walk 1 _,
      (Element.filterMap_forestListing 1 nodes).symm,
      Element.exists_places_walk _⟩
  · intro construct
    exact ⟨Walk.drains_list [construct], (construct.map_listing 0).symm,
      Walk.exists_places_list [construct]⟩

end Stencil
