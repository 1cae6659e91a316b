import Mathlib.Data.List.Flatten
import Mathlib.Data.List.TakeWhile
import Stencil.Proofs.Catalogs
import Stencil.Proofs.Linking

namespace Stencil

open Text

/-! The constructs of a component are numbered from zero on as their tags open,
so the names that the numbers go into are told apart. -/

namespace Construct

/-- The counter has gone from the first number to the next one, and some
constructs, with all below them, have rising numbers between. -/
structure Numbered (first next : Nat) (constructs : List Construct) : Prop where
  le : first ≤ next
  rising : ((constructs.flatMap walk).map Construct.id).Pairwise (· < ·)
  within : ∀ construct ∈ constructs.flatMap walk,
    first ≤ construct.id ∧ construct.id < next

namespace Numbered

variable {first middle next : Nat} {left right : List Construct}

theorem nil (first : Nat) : Numbered first first [] :=
  ⟨Nat.le_refl _, .nil, by simp⟩

theorem append (before : Numbered first middle left)
    (after : Numbered middle next right) :
    Numbered first next (left ++ right) := by
  refine ⟨Nat.le_trans before.le after.le, ?_, ?_⟩
  · rw [List.flatMap_append, List.map_append, List.pairwise_append]
    refine ⟨before.rising, after.rising, ?_⟩
    intro low lower high upper
    obtain ⟨early, inLeft, rfl⟩ := List.mem_map.mp lower
    obtain ⟨late, inRight, rfl⟩ := List.mem_map.mp upper
    exact Nat.lt_of_lt_of_le (before.within early inLeft).2
      (after.within late inRight).1
  · intro construct member
    rw [List.flatMap_append] at member
    rcases List.mem_append.mp member with lower | upper
    · obtain ⟨above, below⟩ := before.within construct lower
      exact ⟨above, Nat.lt_of_lt_of_le below after.le⟩
    · obtain ⟨above, below⟩ := after.within construct upper
      exact ⟨Nat.le_trans before.le above, below⟩

theorem outer {construct : Construct} {inner : List Construct}
    (numbered : Numbered (construct.id + 1) next inner)
    (kept : construct.children.Sublist inner) :
    Numbered construct.id next [construct] := by
  have below : (construct.children.flatMap walk).Sublist (inner.flatMap walk) :=
    kept.flatMap _
  have walked : [construct].flatMap walk =
      construct :: construct.children.flatMap walk := by
    rw [List.flatMap_singleton, walk_eq]
  have after := numbered.le
  refine ⟨by omega, ?_, ?_⟩
  · rw [walked, List.map_cons, List.pairwise_cons]
    refine ⟨?_, numbered.rising.sublist (below.map _)⟩
    intro number listed
    obtain ⟨deeper, member, rfl⟩ := List.mem_map.mp listed
    exact (numbered.within deeper (below.subset member)).1
  · intro other member
    rw [walked] at member
    rcases List.mem_cons.mp member with rfl | deeper
    · omega
    · have bounds := numbered.within other (below.subset deeper)
      omega

end Numbered

section Runs

variable {scope : Scope} {source : Source} {element : Element} {kind : Kind}
  {number : Nat} {construct : Construct} {inner : List Construct}
  {before after : Progress}

theorem passSlots_nextId {target : String} {slots : List Construct}
    (run : passSlots source element target inner before = .ok (slots, after)) :
    after.nextId = before.nextId := by
  unfold passSlots at run
  obtain ⟨outside, _, lifted, run⟩ := Builder.bind_eq_ok.mp run
  obtain ⟨_, rfl⟩ := Builder.lift_eq_ok.mp lifted
  obtain ⟨_, told, tells, run⟩ := Builder.bind_eq_ok.mp run
  obtain ⟨_, rfl⟩ := Builder.pure_eq_ok.mp run
  obtain ⟨_, rfl⟩ := Prod.mk.inj (Except.ok.inj tells)
  rfl

theorem assemble_nextId
    (run : assemble source element kind number inner before =
      .ok (construct, after)) :
    after.nextId = before.nextId := by
  unfold assemble at run
  split at run
  · obtain ⟨slots, _, passed, run⟩ := Builder.bind_eq_ok.mp run
    obtain ⟨_, _, chosen, run⟩ := Builder.bind_eq_ok.mp run
    obtain ⟨_, rfl⟩ := Builder.pure_eq_ok.mp chosen
    obtain ⟨_, _, paired, run⟩ := Builder.bind_eq_ok.mp run
    obtain ⟨_, rfl⟩ := Builder.lift_eq_ok.mp paired
    obtain ⟨html, _, sliced, run⟩ := Builder.bind_eq_ok.mp run
    obtain ⟨_, rfl⟩ := Builder.lift_eq_ok.mp sliced
    obtain ⟨_, rfl⟩ := Builder.pure_eq_ok.mp run
    exact passSlots_nextId passed
  · obtain ⟨runs, _, read, run⟩ := Builder.bind_eq_ok.mp run
    obtain ⟨_, rfl⟩ := Builder.lift_eq_ok.mp read
    obtain ⟨_, _, chosen, run⟩ := Builder.bind_eq_ok.mp run
    obtain ⟨_, rfl⟩ := Builder.pure_eq_ok.mp chosen
    obtain ⟨_, _, paired, run⟩ := Builder.bind_eq_ok.mp run
    obtain ⟨_, rfl⟩ := Builder.lift_eq_ok.mp paired
    obtain ⟨html, _, sliced, run⟩ := Builder.bind_eq_ok.mp run
    obtain ⟨_, rfl⟩ := Builder.lift_eq_ok.mp sliced
    obtain ⟨_, rfl⟩ := Builder.pure_eq_ok.mp run
    rfl

theorem ofElement_numbered
    (below : ∀ inner before after,
      ofNodes scope element.children before = .ok (inner, after) →
      Numbered before.nextId after.nextId inner)
    (run : ofElement scope element kind before = .ok (construct, after)) :
    construct.id = before.nextId ∧ Numbered before.nextId after.nextId
    [construct] := by
  unfold ofElement at run
  obtain ⟨number, _, fresh, run⟩ := Builder.bind_eq_ok.mp run
  obtain ⟨rfl, rfl⟩ := Prod.mk.inj (Except.ok.inj fresh)
  obtain ⟨inner, middle, collected, run⟩ := Builder.bind_eq_ok.mp run
  have assembled := assemble_ok run
  have numbered : Numbered (construct.id + 1) middle.nextId inner := by
    rw [assembled.id_eq]
    exact below inner _ middle collected
  have kept : construct.children.Sublist inner := by
    rw [assembled.children_eq]
    exact kind.kept_sublist inner
  refine ⟨assembled.id_eq, ?_⟩
  rw [assemble_nextId run, ← assembled.id_eq]
  exact numbered.outer kept

end Runs

mutual
/-- What the builder finds at a node is numbered from its counter on. -/
theorem ofNode_numbered {scope : Scope} (node : Node)
    {constructs : List Construct} {before after : Progress}
    (run : ofNode scope node before = .ok (constructs, after)) :
    Numbered before.nextId after.nextId constructs := by
  cases node with
  | text | comment | doctype =>
      rw [ofNode] at run
      obtain ⟨rfl, rfl⟩ := Builder.pure_eq_ok.mp run
      exact .nil _
  | element tag tagSpan span children =>
      rw [ofNode] at run
      obtain ⟨kind, _, lifted, run⟩ := Builder.bind_eq_ok.mp run
      obtain ⟨_, rfl⟩ := Builder.lift_eq_ok.mp lifted
      cases kind with
      | none => exact ofNodes_numbered children run
      | some kind =>
          have made : ∃ construct,
              ofElement scope ⟨tag, tagSpan, span, children⟩ kind before =
              .ok (construct, after) ∧ constructs = [construct] := by
            obtain ⟨number, first, fresh, run⟩ := Builder.bind_eq_ok.mp run
            obtain ⟨inner, second, collected, run⟩ := Builder.bind_eq_ok.mp run
            obtain ⟨construct, third, assembled, run⟩ :=
              Builder.bind_eq_ok.mp run
            obtain ⟨rfl, rfl⟩ := Builder.pure_eq_ok.mp run
            exact ⟨construct, Builder.bind_eq_ok.mpr ⟨number, first, fresh,
              Builder.bind_eq_ok.mpr ⟨inner, second, collected, assembled⟩⟩,
              rfl⟩
          obtain ⟨construct, made, rfl⟩ := made
          exact (ofElement_numbered (fun _ _ _ => ofNodes_numbered children)
            made).2

theorem ofNodes_numbered {scope : Scope} (nodes : List Node)
    {constructs : List Construct} {before after : Progress}
    (run : ofNodes scope nodes before = .ok (constructs, after)) :
    Numbered before.nextId after.nextId constructs := by
  cases nodes with
  | nil =>
      rw [ofNodes] at run
      obtain ⟨rfl, rfl⟩ := Builder.pure_eq_ok.mp run
      exact .nil _
  | cons node rest =>
      obtain ⟨first, more, middle, rfl, ran, others⟩ := ofNodes_cons_ok run
      exact (ofNode_numbered node ran).append (ofNodes_numbered rest others)
end

theorem build_numbered {source : Source} {root : Element} {known : List String}
    {construct : Construct} {events : List Event}
    (built : build source root known = .ok (construct, events)) :
    construct.id = 0 ∧ (construct.walk.map Construct.id).Pairwise (· < ·) := by
  unfold build at built
  obtain ⟨⟨found, progress⟩, run, built⟩ := Except.bind_eq_ok.mp built
  obtain ⟨rfl, _⟩ := Prod.mk.inj (Except.pure_eq_ok.mp built)
  unfold ofRoot at run
  obtain ⟨kind, middle, lifted, run⟩ := Builder.bind_eq_ok.mp run
  obtain ⟨_, rfl⟩ := Builder.lift_eq_ok.mp lifted
  cases kind with
  | none => cases run
  | some kind =>
      obtain ⟨first, numbered⟩ :=
        ofElement_numbered (fun _ _ _ => ofNodes_numbered _) run
      refine ⟨first, ?_⟩
      simpa using numbered.rising

theorem children_sublist_walk (construct : Construct) :
    construct.children.Sublist construct.walk := by
  rw [walk_eq]
  refine List.Sublist.cons _ ?_
  generalize construct.children = children
  induction children with
  | nil => exact List.Sublist.refl _
  | cons child rest induction =>
      rw [List.flatMap_cons, walk_eq, List.cons_append]
      exact (induction.trans (List.sublist_append_right _ _)).cons_cons child

theorem walk_sublist_walk {construct : Construct} (root : Construct)
    (walked : construct ∈ root.walk) : construct.walk.Sublist root.walk := by
  induction root, walked using walk_induction with
  | here => exact List.Sublist.refl _
  | pass root child inside below induction =>
      rw [walk_eq root]
      exact (induction.trans
        (List.sublist_flatten_of_mem (List.mem_map_of_mem inside))).cons root

theorem children_rising {root construct : Construct}
    (walked : construct ∈ root.walk)
    (rising : (root.walk.map Construct.id).Pairwise (· < ·)) :
    (construct.children.map Construct.id).Pairwise (· < ·) :=
  rising.sublist
    (((children_sublist_walk construct).trans
      (walk_sublist_walk root walked)).map _)

end Construct

namespace Text

def lastNumber (text : String) : List Char :=
  (text.toList.reverse.dropWhile fun char => !char.isDigit).takeWhile
    Char.isDigit

theorem isDigit_of_toString (number : Nat) :
    ∀ char ∈ (toString number).toList, char.isDigit := by
  intro char member
  rw [Nat.toString_eq_repr, Nat.toList_repr] at member
  exact Nat.isDigit_of_mem_toDigits (by decide) (by decide) member

theorem toString_ne_nil (number : Nat) : (toString number).toList ≠ [] := by
  rw [Nat.toString_eq_repr, Nat.toList_repr]
  exact Nat.toDigits_ne_nil

theorem lastNumber_eq_nil {text : String}
    (plain : text.toList.all fun char => !char.isDigit) :
    lastNumber text = [] := by
  unfold lastNumber
  rw [List.dropWhile_eq_nil_iff.mpr (by simpa using plain), List.takeWhile_nil]

theorem lastNumber_append {label behind : String} (number : Nat)
    (ends : label.toList.getLast?.all fun char => !char.isDigit)
    (plain : behind.toList.all fun char => !char.isDigit) :
    lastNumber (label ++ toString number ++ behind) =
      (toString number).toList.reverse := by
  have digits := isDigit_of_toString number
  have some := toString_ne_nil number
  unfold lastNumber
  rw [String.toList_append, String.toList_append, List.reverse_append,
    List.reverse_append, List.dropWhile_append_of_pos (by simpa using plain)]
  generalize (toString number).toList = spelled at digits some
  have stays : (spelled.reverse ++ label.toList.reverse).dropWhile
      (fun char => !char.isDigit) =
      spelled.reverse ++ label.toList.reverse := by
    obtain ⟨last, rest, split⟩ :=
      List.exists_cons_of_ne_nil (List.reverse_ne_nil_iff.mpr some)
    have digit : last.isDigit :=
      digits last (List.mem_reverse.mp (split ▸ List.mem_cons_self ..))
    rw [split, List.cons_append, List.dropWhile_cons_of_neg (by simp [digit])]
  have stops : label.toList.reverse.takeWhile Char.isDigit = [] := by
    rw [← List.head?_reverse] at ends
    cases split : label.toList.reverse with
    | nil => rfl
    | cons last rest =>
        rw [split, List.head?_cons] at ends
        exact List.takeWhile_cons_of_neg (by simpa using ends)
  rw [stays, List.takeWhile_append_of_pos (by simpa using digits), stops,
    List.append_nil]

theorem ne_of_lastNumber {text word : String} {number : Nat}
    (numbered : lastNumber text = (toString number).toList.reverse)
    (plain : word.toList.all fun char => !char.isDigit) : text ≠ word := by
  rintro rfl
  rw [lastNumber_eq_nil plain] at numbered
  exact toString_ne_nil number (List.reverse_eq_nil_iff.mp numbered.symm)

theorem eq_of_toString_reverse {left right : Nat}
    (same : (toString left).toList.reverse = (toString right).toList.reverse) :
    left = right := by
  have digits := List.reverse_injective same
  rw [Nat.toString_eq_repr, Nat.toString_eq_repr, Nat.toList_repr,
    Nat.toList_repr] at digits
  calc
    left = Nat.ofDigitChars 10 (Nat.toDigits 10 left) 0 :=
      Nat.ofDigitChars_ten_toDigits.symm
    _ = Nat.ofDigitChars 10 (Nat.toDigits 10 right) 0 := by rw [digits]
    _ = right := Nat.ofDigitChars_ten_toDigits

end Text

namespace Construct

theorem Kind.label_ends (kind : Kind) :
    kind.label.toList.getLast?.all (fun char => !char.isDigit) := by
  cases kind <;> (simp only [Kind.label]; decide)

theorem nodup_of_lastNumber {constructs : List Construct} {texts : List String}
    (rising : (constructs.map Construct.id).Pairwise (· < ·))
    (numbered : texts.map lastNumber =
      constructs.map fun construct => (toString construct.id).toList.reverse) :
      texts.Nodup := by
  apply List.Nodup.of_map lastNumber
  have apart : (constructs.map Construct.id).Nodup := rising.imp Nat.ne_of_lt
  have spelled : Function.Injective fun number : Nat =>
      (toString number).toList.reverse :=
    fun _ _ => eq_of_toString_reverse
  have digits := apart.map spelled
  rw [List.map_map] at digits
  rw [numbered]
  exact digits

end Construct

namespace Declaration

variable {kind : Construct.Kind}

theorem nameOf_plain (plain : ∀ name, kind ≠ .component name) (number : Nat) :
    nameOf kind number = kind.label ++ toString number := by
  cases kind with
  | component name => exact absurd rfl (plain name)
  | loop | conditional | alternative | placeholder | slot => rfl

theorem builderOf_plain (plain : ∀ name, kind ≠ .component name)
    (number : Nat) :
    builderOf kind number = nameOf kind number ++ "Builder" := by
  cases kind with
  | component name => exact absurd rfl (plain name)
  | loop | conditional | alternative | placeholder | slot => rfl

theorem lastNumber_nameOf (plain : ∀ name, kind ≠ .component name)
    (number : Nat) :
    lastNumber (nameOf kind number) = (toString number).toList.reverse := by
  rw [nameOf_plain plain,
    ← String.append_empty (s := kind.label ++ toString number)]
  exact lastNumber_append number kind.label_ends rfl

theorem lastNumber_builderOf (plain : ∀ name, kind ≠ .component name)
    (number : Nat) :
    lastNumber (builderOf kind number) = (toString number).toList.reverse := by
  rw [builderOf_plain plain, nameOf_plain plain]
  exact lastNumber_append number kind.label_ends rfl

theorem getLast?_nameOf (plain : ∀ name, kind ≠ .component name)
    (number : Nat) :
    ∃ digit, (nameOf kind number).toList.getLast? = some digit ∧
      digit.isDigit := by
  obtain ⟨front, digit, spelled⟩ :=
    List.eq_nil_or_concat (toString number).toList |>.resolve_left
    (toString_ne_nil number)
  refine ⟨digit, ?_, isDigit_of_toString number digit ?_⟩
  · rw [nameOf_plain plain, String.toList_append, spelled]
    simp
  · rw [spelled]
    simp

theorem getLast?_builderOf (number : Nat) :
    (builderOf kind number).toList.getLast? = some 'r' := by
  have ends : ∀ front : String,
    (front ++ "Builder").toList.getLast? = some 'r' := by simp
  cases kind with
  | component name =>
      rw [builderOf]
      decide
  | loop | conditional | alternative | placeholder | slot => exact ends _

theorem ofConstruct_fields {signatures : Signatures} {construct : Construct}
    {declaration : Declaration}
    (declared : ofConstruct signatures construct = .ok declaration) :
    declaration.name = nameOf construct.kind construct.id ∧
      declaration.builder = builderOf construct.kind construct.id ∧
      ∀ content, Declaration.content signatures construct declaration.builder
        declaration.inner =
        .ok content → declaration.segments = content.segments := by
  obtain ⟨kind, number, span, html, runs, children⟩ := construct
  rw [ofConstruct] at declared
  obtain ⟨inner, _, declared⟩ := Except.bind_eq_ok.mp declared
  obtain ⟨content, written, declared⟩ := Except.bind_eq_ok.mp declared
  obtain ⟨frame, _, declared⟩ := Except.bind_eq_ok.mp declared
  obtain rfl := Except.pure_eq_ok.mp declared
  refine ⟨rfl, rfl, ?_⟩
  intro other same
  rw [Except.ok.inj (written.symm.trans same)]

mutual
/-- The declarations inside one are those of the constructs below its construct,
in the order of the walk. -/
theorem forall₂_listing {signatures : Signatures} (root : Construct)
    {whole : Declaration} (declared : ofConstruct signatures root = .ok whole)
    (depth : Nat) :
    List.Forall₂ (fun construct entry => ofConstruct signatures construct =
      .ok entry.2)
      root.walk (whole.listing depth) := by
  obtain ⟨_, _, below, _⟩ := ofConstruct_ok declared
  rw [Construct.walk_eq, listing_eq]
  refine .cons declared ?_
  cases root with
  | mk kind number span html runs children =>
      exact forall₂_forestListing children below _

theorem forall₂_forestListing {signatures : Signatures}
    (constructs : List Construct) {declarations : List Declaration}
    (declared : List.Forall₂ (fun construct declaration =>
      ofConstruct signatures construct =
        .ok declaration) constructs declarations)
    (depth : Nat) :
    List.Forall₂ (fun construct entry => ofConstruct signatures construct =
      .ok entry.2)
      (constructs.flatMap Construct.walk)
        (forestListing depth declarations) := by
  cases constructs with
  | nil =>
      cases declared
      exact .nil
  | cons construct rest =>
      cases declared with
      | cons first others =>
          rw [List.flatMap_cons, forestListing]
          exact List.rel_append (forall₂_listing construct first depth)
            (forall₂_forestListing rest others depth)
end

/-- The names that a function declares for itself: those of its closures and of
its builders. -/
def locals (whole : Declaration) : List String :=
  ((whole.listing 0).tail.map fun entry => entry.2.name) ++
    (whole.listing 0).map fun entry => entry.2.builder

theorem locals_eq {signatures : Signatures} {root : Construct}
    {whole : Declaration} (declared : ofConstruct signatures root = .ok whole) :
    whole.locals =
      (root.walk.tail.map fun construct =>
        nameOf construct.kind construct.id) ++
        root.walk.map fun construct =>
          builderOf construct.kind construct.id := by
  have listed := forall₂_listing root declared 0
  have names := listed.map_eq fun _ _ made => (ofConstruct_fields made).1.symm
  have builders := listed.map_eq fun _ _ made =>
    (ofConstruct_fields made).2.1.symm
  rw [locals, List.map_tail, List.map_tail, names, builders]

theorem nodup_locals {signatures : Signatures} {root : Construct}
    {whole : Declaration} {name : String}
    (declared : ofConstruct signatures root = .ok whole)
    (component : root.kind = .component name)
    (below : ∀ child ∈ root.children, ∀ inner ∈ child.walk, ∀ name,
      inner.kind ≠ .component name)
    (rising : (root.walk.map Construct.id).Pairwise (· < ·)) :
    whole.locals.Nodup := by
  have plain : ∀ inner ∈ root.children.flatMap Construct.walk, ∀ name,
      inner.kind ≠ .component name := by
    intro inner member
    obtain ⟨child, inside, walked⟩ := List.mem_flatMap.mp member
    exact below child inside inner walked
  rw [locals_eq declared, Construct.walk_eq, List.tail_cons, List.map_cons]
  rw [Construct.walk_eq, List.map_cons] at rising
  rw [List.nodup_append, List.nodup_cons]
  refine ⟨?_, ⟨?_, ?_⟩, ?_⟩
  · apply Construct.nodup_of_lastNumber rising.of_cons
    rw [List.map_map]
    exact List.map_congr_left fun inner member =>
      lastNumber_nameOf (plain inner member) inner.id
  · intro member
    obtain ⟨inner, walked, same⟩ := List.mem_map.mp member
    rw [component, builderOf] at same
    exact ne_of_lastNumber (lastNumber_builderOf (plain inner walked) inner.id)
      (by decide) same
  · apply Construct.nodup_of_lastNumber rising.of_cons
    rw [List.map_map]
    exact List.map_congr_left fun inner member =>
      lastNumber_builderOf (plain inner member) inner.id
  · rintro text closure _ builder rfl
    obtain ⟨inner, walked, rfl⟩ := List.mem_map.mp closure
    obtain ⟨digit, ends, isDigit⟩ :=
      getLast?_nameOf (plain inner walked) inner.id
    have letter : (nameOf inner.kind inner.id).toList.getLast? = some 'r' := by
      rcases List.mem_cons.mp builder with same | later
      · rw [same]
        exact getLast?_builderOf _
      · obtain ⟨other, _, same⟩ := List.mem_map.mp later
        rw [← same]
        exact getLast?_builderOf _
    obtain rfl := Option.some.inj (letter.symm.trans ends)
    exact absurd isDigit (by decide)

end Declaration

end Stencil
