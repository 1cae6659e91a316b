import Stencil.Proofs.Closures
import Stencil.Proofs.Mentions

namespace Stencil

open Text

/-! The names that the body of a function declares, and when those that its
template chooses get in their way. -/

theorem Text.isIdentifier_of_spelled {text : String}
    (spelled : text.toList.all isIdentifierPart)
    (begins : text.toList.head?.any isIdentifierStart) : isIdentifier text := by
  unfold isIdentifier
  cases chars : text.toList with
  | nil => simp [chars] at begins
  | cons first rest =>
      rw [chars] at spelled begins
      rw [spellsIdentifier, Bool.and_eq_true]
      exact ⟨by simpa using begins, (Bool.and_eq_true_iff.mp spelled).2⟩

namespace Construct

def goesTo (signatures : Signatures) (target : String) (slot : Construct) :
    Bool :=
  slot.slotArgument?.any fun argument =>
    ((signatures.get? target).bind fun parameters =>
      Parameter.find? parameters argument.name).isSome

def keeps (signatures : Signatures) (outer inner : Construct) : Bool :=
  outer.kind.target?.all fun target => inner.goesTo signatures target

/-- No call on the way to a construct leaves out the slot that the way goes
through. -/
def Shown (signatures : Signatures) (lineage : List Construct × Construct) :
    Prop :=
  (lineage.1 ++ [lineage.2]).IsChain fun outer inner =>
    outer.keeps signatures inner

instance (signatures : Signatures) (lineage : List Construct × Construct) :
    Decidable (Shown signatures lineage) :=
  inferInstanceAs (Decidable (List.IsChain _ _))

theorem not_ignores_of_keeps {signatures : Signatures} {outer inner : Construct}
    (kept : outer.keeps signatures inner) :
    ¬ outer.Ignores signatures inner := by
  rintro ⟨target, arguments, name, parameters, call, slot, known, missing⟩
  simp [keeps, goesTo, slotArgument?, call, slot, Kind.target?, known, missing]
    at kept

/-- The names that the body of a construct declares: its builder and the
closures inside it, or the closures of the slots that a call takes. -/
def bodyNames (signatures : Signatures) (construct : Construct) : List String :=
  match construct.kind with
  | .placeholder target _ =>
      (construct.children.filter fun child =>
          child.goesTo signatures target).map fun child =>
            Declaration.nameOf child.kind child.id
  | kind => Declaration.builderOf kind construct.id ::
      construct.children.map fun child => Declaration.nameOf child.kind child.id

end Construct

namespace Statement

def declared? : Statement → Option String
  | .builder name | .closure name => some name
  | .write _ _ | .result _ => none

end Statement

namespace Declaration

open Statement

variable {signatures : Signatures} {construct : Construct} {part : Declaration}

def declares (part : Declaration) : List String :=
  part.statements.filterMap declared?

theorem filterMap_closures (inner : List Declaration) :
    (inner.map fun part => Statement.closure part.name).filterMap declared? =
      inner.map Declaration.name := by
  rw [List.filterMap_map, ← List.filterMap_eq_map]
  rfl

theorem names_of_made {children : List Construct} {inner : List Declaration}
    (made :
      List.Forall₂ (fun child part => ofConstruct signatures child = .ok part)
      children inner) :
    inner.map Declaration.name = children.map fun child =>
      nameOf child.kind child.id :=
  made.map_eq fun _ _ made => (ofConstruct_fields made).1.symm

theorem declares_plain (plain : construct.kind.target? = none)
    (below : ∀ child ∈ construct.children, ∀ name, child.kind ≠ .component name)
    (declared : ofConstruct signatures construct = .ok part) :
    part.declares = part.builder :: part.inner.map Declaration.name := by
  have writes : (part.segments.map fun segment =>
      Statement.write part.builder segment.text).filterMap declared? = [] := by
    rw [List.filterMap_map, List.filterMap_eq_nil_iff]
    exact fun _ _ => rfl
  have builder : declared? (.builder part.builder) = some part.builder := rfl
  have last :
    [Statement.result (part.builder ++ ".String()")].filterMap declared? = [] :=
      rfl
  rw [declares, statements_plain plain below declared, List.filterMap_append,
    List.filterMap_append, List.filterMap_cons_some builder, filterMap_closures,
    writes, last,
    List.append_nil, List.append_nil]

theorem names_of_slots {children : List Construct} {inner : List Declaration}
    (made :
      List.Forall₂ (fun child part => ofConstruct signatures child = .ok part)
      children inner) (test : String → Bool) :
    ((slots children inner).filter fun slot => test slot.1).map
      (fun slot => slot.2.name) =
      (children.filter fun child =>
        child.slotArgument?.any fun argument =>
          test argument.name).map fun child => nameOf child.kind child.id := by
  induction made with
  | nil => rfl
  | @cons child part children inner here _ induction =>
      have named := (ofConstruct_fields here).1
      unfold slots at induction ⊢
      rw [List.zip_cons_cons, List.filterMap_cons, List.filter_cons]
      cases kind : child.kind with
      | slot name =>
          rw [kind] at named
          cases passes : test name <;>
            simp [Construct.slotArgument?, kind, passes, induction, named]
      | component | loop | conditional | alternative | placeholder =>
          simp [Construct.slotArgument?, kind, induction]

theorem declares_placeholder {target : String} {arguments : List Argument}
    (kind : construct.kind = .placeholder target arguments)
    (below : ∀ child ∈ construct.children, ∀ name, child.kind ≠ .component name)
    (declared : ofConstruct signatures construct = .ok part) :
    part.declares =
      (construct.children.filter fun child =>
        child.goesTo signatures target).map fun child =>
          nameOf child.kind child.id := by
  obtain ⟨_, _, made, _⟩ := ofConstruct_ok declared
  obtain ⟨linked, links, statements⟩ :=
    statements_placeholder kind below declared
  obtain ⟨parameters, _, known, _⟩ := Call.link_runs links
  have closures := filterMap_closures
    (((slots construct.children part.inner).filter fun slot =>
      linked.usedSlots.contains slot.1).map Prod.snd)
  rw [List.map_map, List.map_map] at closures
  have last : [Statement.result linked.call.text].filterMap declared? = [] :=
    rfl
  rw [declares, statements, List.filterMap_append, last, List.append_nil]
  refine closures.trans ((names_of_slots made _).trans ?_)
  congr 1
  apply List.filter_congr
  intro child inside
  unfold Construct.goesTo
  rw [known]
  cases argument : child.slotArgument? with
  | none => rfl
  | some slot =>
      exact Call.link_used links known slot
        (List.mem_filterMap.mpr ⟨child, inside, argument⟩)

/-- The names that the lines of a body declare are those that its construct asks
for. -/
theorem declares_eq
    (below : ∀ child ∈ construct.children, ∀ name, child.kind ≠ .component name)
    (declared : ofConstruct signatures construct = .ok part) :
    part.declares = construct.bodyNames signatures := by
  obtain ⟨_, _, made, _⟩ := ofConstruct_ok declared
  obtain ⟨_, builder, _⟩ := ofConstruct_fields declared
  unfold Construct.bodyNames
  cases kind : construct.kind with
  | placeholder target arguments =>
      exact declares_placeholder kind below declared
  | component | loop | conditional | alternative | slot =>
      rw [declares_plain (by rw [kind]; rfl) below declared, builder,
        names_of_made made, kind]

def item? (part : Declaration) : Option String :=
  part.lines.head?.bind fun line =>
    let behind := line.toList.dropWhile isIdentifierPart
    if beginsWith " := func(_ int, ".toList behind then
      some (String.ofList ((behind.drop 16).takeWhile isIdentifierPart))
    else none

theorem item?_of_header {frame : Frame} {body : List String}
    (lines : part.lines = (frame.header ++ " \x7b") :: body)
    {word rest : List Char}
    (chars : (frame.header ++ " \x7b").toList = word ++ ' ' :: rest)
    (spelled : word.all isIdentifierPart) :
    part.item? = if beginsWith " := func(_ int, ".toList (' ' :: rest) then
      some (String.ofList ((rest.drop 15).takeWhile isIdentifierPart))
          else none := by
  rw [item?, lines, List.head?_cons, Option.bind_some]
  dsimp only
  rw [chars, dropWhile_word spelled (by decide)]
  rfl

theorem item?_eq {scope : Scope} {element : Element}
    (built : Construct.BuiltFrom scope element construct)
    (declared : ofConstruct signatures construct = .ok part) :
    part.item? = construct.kind.item? := by
  obtain ⟨content, frame, _, _, framed, named, _, lines⟩ :=
    ofConstruct_ok declared
  rw [List.cons_append] at lines
  cases kind : construct.kind with
  | component name =>
      have identifier := built.isIdentifier_component kind
      rw [kind, Declaration.frame] at framed
      split at framed
      · cases framed
      · rename_i parameters _
        obtain rfl := Except.ok.inj framed
        have chars : ("func " ++ name ++ "(" ++
              ", ".intercalate (parameters.map Parameter.text) ++
            ") string" ++ " \x7b").toList =
              "func".toList ++ ' ' :: (name.toList ++ ("(" ++
              ", ".intercalate (parameters.map Parameter.text) ++ ") string" ++
              " \x7b").toList) := by
          simp
        rw [item?_of_header lines chars (by decide), if_neg]
        · rfl
        · unfold isIdentifier at identifier
          cases spelled : name.toList with
          | nil => simp [spelled, spellsIdentifier] at identifier
          | cons first more =>
              have other : first ≠ ':' := by
                rintro rfl
                simp [spelled, spellsIdentifier, isIdentifierStart]
                  at identifier
              simp [beginsWith, other.symm]
  | loop item collection type =>
      have bound : construct.kind.item? = some item := by rw [kind]; rfl
      have spelled := spelled_of_isIdentifier (built.isIdentifier_item bound)
      have plain : ∀ name, construct.kind ≠ .component name := by simp [kind]
      rw [kind] at framed
      obtain rfl := Except.ok.inj framed
      have chars :
          (part.name ++ " := func(_ int, " ++ item ++ " " ++ elementType type ++
          ") string" ++ " \x7b").toList =
            part.name.toList ++ ' ' :: (":= func(_ int, ".toList ++
            (item.toList ++ ' ' ::
              (elementType type ++ ") string" ++ " \x7b").toList)) := by
        simp
      have word : part.name.toList.all isIdentifierPart := by
        rw [named]
        exact spelled_nameOf plain _
      rw [item?_of_header lines chars word, if_pos (by simp [beginsWith])]
      have behind : ((":= func(_ int, ".toList ++ (item.toList ++ ' ' ::
          (elementType type ++ ") string" ++ " \x7b").toList)).drop
            15).takeWhile isIdentifierPart =
            item.toList := takeWhile_word spelled (by decide)
      rw [behind, String.ofList_toList]
      rfl
  | conditional | alternative | placeholder | slot =>
      have plain : ∀ name, construct.kind ≠ .component name := by simp [kind]
      rw [kind] at framed
      obtain rfl := Except.ok.inj framed
      have chars : (closure part.name ++ " \x7b").toList =
          part.name.toList ++ ' ' :: ":= func() string \x7b".toList := by
        simp [closure]
      have word : part.name.toList.all isIdentifierPart := by
        rw [named]
        exact spelled_nameOf plain _
      rw [item?_of_header lines chars word, if_neg (by decide)]
      rfl

section Printing

mutual
theorem lines_of_lineages (root : Construct) {whole : Declaration}
    (declared : ofConstruct signatures root = .ok whole)
    (onlySlots : ∀ outer ∈ root.walk, outer.kind.target? ≠ none →
      ∀ child ∈ outer.children, child.kind.isSlot)
    {around : List Construct} {lineage : List Construct × Construct}
    (placed : lineage ∈ root.lineages around) :
    ∃ path, lineage.1 = around ++ path ∧
      (path ++ [lineage.2]).head? = some root ∧
      ((path ++ [lineage.2]).IsChain
        (fun outer inner => outer.keeps signatures inner) →
        ∃ part, ofConstruct signatures lineage.2 = .ok part ∧
          Emit.indentLines^[path.length] part.lines <:+: whole.lines) := by
  obtain ⟨_, _, made, _⟩ := ofConstruct_ok declared
  obtain ⟨kind, id, span, html, runs, children⟩ := root
  rw [Construct.lineages] at placed
  rcases List.mem_cons.mp placed with rfl | deeper
  · exact ⟨[], (List.append_nil _).symm, rfl,
      fun _ => ⟨whole, declared, List.infix_refl _⟩⟩
  · have slots : ∀ child ∈ children, ∀ outer ∈ child.walk,
        outer.kind.target? ≠ none →
        ∀ inner ∈ outer.children, inner.kind.isSlot :=
      fun child inside outer walked =>
        onlySlots outer (Construct.mem_walk_of_child inside walked)
    obtain ⟨child, middle, pair, path, split, first, lines⟩ :=
      lines_of_forestLineages children made slots deeper
    refine ⟨_ :: path, by rw [split, List.append_assoc]; rfl, rfl, ?_⟩
    intro chain
    obtain ⟨kept, chain⟩ := List.isChain_cons.mp chain
    obtain ⟨part, partDeclared, within⟩ := lines chain
    have isSlot : _ → child.kind.isSlot := fun called =>
      onlySlots _ (Construct.mem_walk_self _) called _ (List.of_mem_zip pair).1
    have under := (lines_child declared pair isSlot).resolve_left
      (Construct.not_ignores_of_keeps (kept child first))
    refine ⟨part, partDeclared, .trans ?_ under⟩
    rw [List.length_cons, Function.iterate_succ_apply']
    exact within.map Emit.indentLine

theorem lines_of_forestLineages (constructs : List Construct)
    {inner : List Declaration}
    (made :
      List.Forall₂ (fun child part => ofConstruct signatures child = .ok part)
      constructs inner)
    (onlySlots : ∀ child ∈ constructs, ∀ outer ∈ child.walk,
      outer.kind.target? ≠ none →
      ∀ inner ∈ outer.children, inner.kind.isSlot) {around : List Construct}
    {lineage : List Construct × Construct}
    (placed : lineage ∈ Construct.forestLineages around constructs) :
    ∃ child middle, (child, middle) ∈ constructs.zip inner ∧
      ∃ path, lineage.1 = around ++ path ∧
        (path ++ [lineage.2]).head? = some child ∧
        ((path ++ [lineage.2]).IsChain
          (fun outer inner => outer.keeps signatures inner) →
          ∃ part, ofConstruct signatures lineage.2 = .ok part ∧
            Emit.indentLines^[path.length] part.lines <:+: middle.lines) := by
  cases constructs with
  | nil => cases placed
  | cons construct rest =>
      cases made with
      | cons here others =>
          rw [Construct.forestLineages] at placed
          rcases List.mem_append.mp placed with first | later
          · exact ⟨construct, _, List.mem_cons_self ..,
              lines_of_lineages construct here
              (onlySlots construct (List.mem_cons_self ..)) first⟩
          · obtain ⟨child, middle, pair, found⟩ :=
              lines_of_forestLineages rest others
              (fun child inside => onlySlots child
                (List.mem_cons_of_mem _ inside)) later
            exact ⟨child, middle, List.mem_cons_of_mem _ pair, found⟩
end

end Printing

section Locals

theorem begins_nameOf {kind : Construct.Kind}
    (plain : ∀ name, kind ≠ .component name) (number : Nat)
    (behind : List Char) :
    ((nameOf kind number).toList ++ behind).head?.any isIdentifierStart := by
  rw [nameOf_plain plain]
  cases kind <;> simp [Construct.Kind.label, isIdentifierStart]

theorem keywords_plain :
    Emit.keywords.all fun word => word.toList.all fun char =>
      !char.isDigit := by decide

theorem usable_nameOf {kind : Construct.Kind}
    (plain : ∀ name, kind ≠ .component name) (number : Nat) :
    isIdentifier (nameOf kind number) ∧ nameOf kind number ∉ Emit.keywords := by
  refine ⟨isIdentifier_of_spelled (spelled_nameOf plain number) ?_, ?_⟩
  · simpa using begins_nameOf plain number []
  · exact fun member =>
      nameOf_ne plain number (List.all_eq_true.mp keywords_plain _ member) rfl

theorem usable_builderOf (kind : Construct.Kind) (number : Nat) :
    isIdentifier (builderOf kind number) ∧
    builderOf kind number ∉ Emit.keywords := by
  refine ⟨isIdentifier_of_spelled (spelled_builderOf kind number) ?_, ?_⟩
  · by_cases plain : ∀ name, kind ≠ .component name
    · rw [builderOf_plain plain, String.toList_append]
      exact begins_nameOf plain number _
    · obtain ⟨name, rfl⟩ := not_forall_not.mp plain
      rw [builderOf]
      decide
  · intro member
    refine builderOf_ne kind number
      (List.all_eq_true.mp keywords_plain _ member) ?_ rfl
    intro same
    rw [same] at member
    exact absurd member (by decide)

theorem usable_locals {root : Construct} {whole : Declaration}
    (below : ∀ child ∈ root.children, ∀ inner ∈ child.walk, ∀ name,
      inner.kind ≠ .component name)
    (declared : ofConstruct signatures root = .ok whole) :
    ∀ name ∈ whole.locals, isIdentifier name ∧ name ∉ Emit.keywords := by
  intro name member
  rw [locals_eq declared, Construct.walk_eq, List.tail_cons] at member
  rcases List.mem_append.mp member with closure | builder
  · obtain ⟨inner, deeper, rfl⟩ := List.mem_map.mp closure
    obtain ⟨child, inside, walked⟩ := List.mem_flatMap.mp deeper
    exact usable_nameOf (below child inside inner walked) inner.id
  · obtain ⟨inner, _, rfl⟩ := List.mem_map.mp builder
    exact usable_builderOf inner.kind inner.id

end Locals

end Declaration

/-- A function can be compiled as far as its names go: none is a keyword, and no
body in it declares a name that the function or a loop around the body has
already bound. -/
structure GeneratedFunction.Usable (function : GeneratedFunction)
    (signatures : Signatures) (root : Construct) : Prop where
  name : function.name ∉ Emit.keywords
  parameters : ∀ name ∈ function.parameters.map Parameter.name,
    name ∉ Emit.keywords
  items : ∀ construct ∈ root.walk, ∀ part,
    Declaration.ofConstruct signatures construct = .ok part →
    ∀ item, part.item? = some item → item ∉ Emit.keywords
  apart : ∀ lineage ∈ root.lineages [],
    Construct.Shown signatures lineage → ∀ part,
    Declaration.ofConstruct signatures lineage.2 = .ok part →
    ∀ name ∈ part.declares,
      name ∉ function.parameters.map Parameter.name ∧
      ∀ outer ∈ lineage.1 ++ [lineage.2], ∀ enclosing,
        Declaration.ofConstruct signatures outer = .ok enclosing →
        enclosing.item? ≠ some name

/-- The names that a template chooses leave alone the keywords and, wherever
they can be seen, the names that bodies declare. -/
structure Construct.Unreserved (root : Construct) (signatures : Signatures)
    (name : String) :
    Prop where
  name : name ∉ Emit.keywords
  mentioned : ∀ name, root.Mentions name → name ∉ Emit.keywords
  items : ∀ construct ∈ root.walk, ∀ item,
    construct.kind.item? = some item → item ∉ Emit.keywords
  apart : ∀ lineage ∈ root.lineages [], Shown signatures lineage →
    ∀ name ∈ lineage.2.bodyNames signatures,
      ¬ root.Mentions name ∧ ∀ outer ∈ lineage.1 ++ [lineage.2],
      outer.kind.item? ≠ some name

namespace Construct

def isUnreserved (root : Construct) (signatures : Signatures) (name : String) :
    Bool :=
  let names := (root.occurrences signatures).map Occurrence.name
  !Emit.keywords.contains name &&
    names.all (fun name => !Emit.keywords.contains name) &&
    root.walk.all (fun construct =>
      construct.kind.item?.all fun item => !Emit.keywords.contains item) &&
    (root.lineages []).all fun lineage => !decide (Shown signatures lineage) ||
      (lineage.2.bodyNames signatures).all fun name => !names.contains name &&
        (lineage.1 ++ [lineage.2]).all fun outer => outer.kind.item? !=
          some name

theorem isUnreserved_iff {root : Construct} {signatures : Signatures}
    {name : String} :
    root.isUnreserved signatures name ↔ root.Unreserved signatures name := by
  simp only [isUnreserved, Bool.and_eq_true, List.all_eq_true, Bool.or_eq_true,
    Bool.not_eq_true', decide_eq_false_iff_not, List.contains_eq_mem,
    bne_iff_ne, Option.all_eq_true,
    ← mentions_iff signatures]
  constructor
  · rintro ⟨⟨⟨named, mentioned⟩, items⟩, apart⟩
    exact ⟨named, mentioned, items, fun lineage placed shown =>
      (apart lineage placed).resolve_left (not_not_intro shown)⟩
  · rintro ⟨named, mentioned, items, apart⟩
    exact ⟨⟨⟨named, mentioned⟩, items⟩, fun lineage placed =>
      or_iff_not_imp_left.mpr fun shown =>
        apart lineage placed (not_not.mp shown)⟩

instance (root : Construct) (signatures : Signatures) (name : String) :
    Decidable (root.Unreserved signatures name) :=
  decidable_of_iff _ isUnreserved_iff

end Construct

/-- A function whose parameters, items and bodies are those of its tree is
usable where the tree leaves the reserved names alone. -/
theorem GeneratedFunction.usable_iff {function : GeneratedFunction}
    {signatures : Signatures} {root : Construct}
    (parameters : ∀ name, name ∈ function.parameters.map Parameter.name ↔
      root.Mentions name)
    (declared : ∀ construct ∈ root.walk, ∃ part,
      Declaration.ofConstruct signatures construct = .ok part ∧
        part.item? = construct.kind.item? ∧
        part.declares = construct.bodyNames signatures) :
    function.Usable signatures root ↔
    root.Unreserved signatures function.name := by
  have inside : ∀ lineage ∈ root.lineages [],
      ∀ outer ∈ lineage.1 ++ [lineage.2],
      outer ∈ root.walk := by
    intro lineage placed outer member
    exact (Construct.mem_walk_of_lineages root placed outer member).resolve_left
      List.not_mem_nil
  have self : ∀ lineage ∈ root.lineages [], lineage.2 ∈ root.walk :=
      fun lineage placed =>
        inside lineage placed _
          (List.mem_append_right _ (List.mem_singleton_self _))
  constructor
  · intro usable
    refine ⟨usable.name, ?_, ?_, ?_⟩
    · exact fun name mentions =>
        usable.parameters name ((parameters name).mpr mentions)
    · intro construct walked item bound
      obtain ⟨part, made, same, _⟩ := declared construct walked
      exact usable.items construct walked part made item (same.trans bound)
    · intro lineage placed shown name member
      obtain ⟨part, made, _, body⟩ := declared lineage.2 (self lineage placed)
      rw [← body] at member
      obtain ⟨other, others⟩ := usable.apart lineage placed shown part made name
        member
      refine ⟨mt (parameters name).mpr other, ?_⟩
      intro outer around bound
      obtain ⟨enclosing, outerMade, same, _⟩ :=
        declared outer (inside lineage placed outer around)
      exact others outer around enclosing outerMade (same.trans bound)
  · intro unreserved
    refine ⟨unreserved.name, ?_, ?_, ?_⟩
    · exact fun name listed =>
        unreserved.mentioned name ((parameters name).mp listed)
    · intro construct walked part made item bound
      obtain ⟨_, again, same, _⟩ := declared construct walked
      obtain rfl := Except.ok.inj (again.symm.trans made)
      exact unreserved.items construct walked item (same.symm.trans bound)
    · intro lineage placed shown part made name member
      obtain ⟨_, again, _, body⟩ := declared lineage.2 (self lineage placed)
      obtain rfl := Except.ok.inj (again.symm.trans made)
      rw [body] at member
      obtain ⟨other, others⟩ :=
        unreserved.apart lineage placed shown name member
      refine ⟨mt (parameters name).mp other, ?_⟩
      intro outer around enclosing outerMade bound
      obtain ⟨_, outerAgain, same, _⟩ :=
        declared outer (inside lineage placed outer around)
      obtain rfl := Except.ok.inj (outerAgain.symm.trans outerMade)
      exact others outer around (same.symm.trans bound)

namespace Catalog

variable {files : List TemplateFile} {catalog : Catalog} {events : List Event}

theorem mem_parameters (parsed : parse files = .ok (catalog, events))
    {signatures : Signatures}
    (derived : Signatures.ofCatalog catalog = .ok signatures)
    {component : Component} (member : component ∈ catalog.components)
    (name : String) :
    name ∈ ((signatures.get? component.name).getD []).map Parameter.name ↔
      component.root.Mentions name := by
  obtain ⟨derivation, complete⟩ := Signatures.derivation_of_ofCatalog derived
  obtain ⟨entry, listed, named⟩ :=
    List.mem_map.mp (complete _ (List.mem_map_of_mem member))
  obtain ⟨callees, _, _, other, otherMember, otherNamed, own, _⟩ :=
    derivation.exists_callees listed
  obtain rfl := eq_of_name_eq (nodup_names parsed) otherMember member
    (otherNamed.trans named)
  rw [← named, Signatures.get?_of_mem derivation.nodup_names listed,
    Option.getD_some]
  exact Parameter.mem_names_ofConstruct own

/-- Every name in the function of a component is an identifier, and those that
the function declares for itself are no keywords. With the names that the
template chooses it is usable if and only if they leave alone the keywords and
what the bodies declare. -/
theorem names_usable_iff (parsed : parse files = .ok (catalog, events))
    {functions : List GeneratedFunction} {told : List Event}
    (compiled : catalog.functions = .ok (functions, told))
    {component : Component} (member : component ∈ catalog.components) :
    ∃ signatures function whole, Signatures.ofCatalog catalog = .ok signatures ∧
      GeneratedFunction.Only functions component.name function ∧
      Declaration.ofConstruct signatures component.root = .ok whole ∧
      function.code = whole.code ∧
      (∀ lineage ∈ component.root.lineages [],
        Construct.Shown signatures lineage →
        ∃ part, Declaration.ofConstruct signatures lineage.2 = .ok part ∧
          Emit.indentLines^[lineage.1.length] part.lines <:+: whole.lines) ∧
      (∀ name ∈ whole.locals, isIdentifier name ∧ name ∉ Emit.keywords) ∧
      isIdentifier function.name ∧
      (∀ name ∈ function.parameters.map Parameter.name, isIdentifier name) ∧
      (∀ construct ∈ component.root.walk, ∀ item,
        construct.kind.item? = some item →
        isIdentifier item) ∧
      (function.Usable signatures component.root ↔
        component.root.Unreserved signatures component.name) := by
  obtain ⟨signatures, derived, generated⟩ := functions_ok compiled
  obtain ⟨function, only, whole, declared, rfl⟩ :=
    exists_only (nodup_names parsed) generated member
  obtain ⟨_, _, _, _, _, _, _, _, built, _, kind⟩ := parse_ok parsed member
  have below := (Construct.build_ok built).only_root
  have made : ∀ construct ∈ component.root.walk, ∃ scope element,
      Construct.BuiltFrom scope element construct := by
    intro construct walked
    obtain ⟨_, _, _, _, _, _, built, _⟩ := exists_builtFrom parsed member walked
    exact ⟨_, _, built⟩
  have mentioned := mem_parameters parsed derived member
  refine ⟨signatures, _, whole, derived, only, declared, rfl, ?_,
    Declaration.usable_locals below declared, ?_, ?_, ?_, ?_⟩
  · intro lineage placed shown
    obtain ⟨path, split, _, lines⟩ :=
      Declaration.lines_of_lineages component.root declared
      (fun outer walked called => (made outer walked).elim fun _ built =>
        built.elim fun _ built => built.slots_of_placeholder called) placed
    rw [List.nil_append] at split
    rw [Construct.Shown, split] at shown
    rw [split]
    exact lines shown
  · exact (Construct.build_ok built).isIdentifier_component kind
  · exact fun name listed => ((mentioned name).mp listed).isIdentifier made
  · intro construct walked item bound
    obtain ⟨_, _, built⟩ := made construct walked
    exact built.isIdentifier_item bound
  · refine GeneratedFunction.usable_iff mentioned ?_
    intro construct walked
    obtain ⟨entry, _, part⟩ :=
      (Declaration.forall₂_listing component.root declared 0).exists_of_mem_left
        walked
    obtain ⟨_, _, built⟩ := made construct walked
    exact ⟨entry.2, part, Declaration.item?_eq built part,
      Declaration.declares_eq
      (fun child inside => built.only_root child inside child
        (Construct.mem_walk_self child)) part⟩

/-- A loop may call its item as the function calls its builder, and a parameter
may have the name of a slot that a call leaves out. -/
theorem names_usable_iff_page :
    let files : List TemplateFile :=
      [⟨"page.html", "<p _component=\"Page\">\x7b\x7b slot4 \x7d\x7d" ++
          "<b _for=\"builder of rows []string\">\x7b\x7b builder \x7d\x7d" ++
          "<i _if=\"on\">a</i></b>" ++
          "<card><u _slot=\"foot\">b</u></card></p>"⟩,
        ⟨"card.html", "<p _component=\"Card\">c</p>"⟩]
    ∃ catalog events functions told page signatures function,
      parse files = .ok (catalog, events) ∧
      catalog.functions = .ok (functions, told) ∧
      page ∈ catalog.components ∧
      GeneratedFunction.Only functions "Page" function ∧
      function.parameters =
        [⟨"slot4", "string"⟩, ⟨"rows", "[]string"⟩, ⟨"on", "bool"⟩] ∧
      page.root.Unreserved signatures "Page" ∧
      function.Usable signatures page.root := by
  intro files
  let named : List (String × List Parameter) :=
    [("Page", [⟨"slot4", "string"⟩, ⟨"rows", "[]string"⟩, ⟨"on", "bool"⟩]),
      ("Card", [])]
  have shape : (parse files).map (fun result =>
      (result.1.functions.map fun made =>
          made.1.map fun function => (function.name, function.parameters),
        result.1.components.any fun page => page.name = "Page" ∧
          (Signatures.ofCatalog result.1).toOption.any fun signatures =>
            decide (page.root.Unreserved signatures "Page"))) = .ok (.ok named,
                true) := by
    decide +kernel
  obtain ⟨⟨catalog, events⟩, parsed, shape⟩ := Except.map_eq_ok.mp shape
  obtain ⟨compiled, found⟩ := Prod.mk.inj shape
  obtain ⟨⟨functions, told⟩, compiled, listed⟩ := Except.map_eq_ok.mp compiled
  simp only [List.any_eq_true, decide_eq_true_eq] at found
  obtain ⟨page, member, title, unreserved⟩ := found
  obtain ⟨signatures, function, whole, derived, only, _, _, _, _, _, _, _,
      usable⟩ :=
    names_usable_iff parsed compiled member
  rw [title] at only usable
  rw [derived] at unreserved
  have unreserved : page.root.Unreserved signatures "Page" :=
    of_decide_eq_true unreserved
  have parameters : (function.name, function.parameters) ∈ named := by
    rw [← listed]
    exact List.mem_map_of_mem only.1
  rw [(only.2 function only.1).mpr rfl] at parameters
  have parameters : function.parameters =
      [⟨"slot4", "string"⟩, ⟨"rows", "[]string"⟩, ⟨"on", "bool"⟩] := by
    simpa [named] using parameters
  exact ⟨catalog, events, functions, told, page, signatures, function, parsed,
    compiled, member,
    only, parameters, unreserved, usable.mpr unreserved⟩

/-- The function and a parameter have keywords for names, the other parameter
that of the builder, and the item of the loop that of the loop's builder. -/
theorem names_unusable :
    let files : List TemplateFile :=
      [⟨"a.html", "<p _component=\"func\">\x7b\x7b builder \x7d\x7d" ++
        "<b _for=\"for1Builder of range []string\">x</b></p>"⟩]
    ∃ catalog events told signatures component function whole closure,
      parse files = .ok (catalog, events) ∧
      catalog.functions = .ok ([function], told) ∧
      Signatures.ofCatalog catalog = .ok signatures ∧
      catalog.components = [component] ∧
      Declaration.ofConstruct signatures component.root = .ok whole ∧
      whole.inner = [closure] ∧
      function.name = "func" ∧
      function.parameters = [⟨"builder", "string"⟩, ⟨"range", "[]string"⟩] ∧
      whole.declares = ["builder", "for1"] ∧
      closure.item? = some "for1Builder" ∧
      closure.declares = ["for1Builder"] ∧
      ¬ function.Usable signatures component.root := by
  intro files
  have shape : (parse files).map (fun result =>
      (result.1.functions.map fun made =>
          made.1.map fun function => (function.name, function.parameters),
        result.1.components.map fun component => decide (
          (do let signatures ← Signatures.ofCatalog result.1
              let whole ← Declaration.ofConstruct signatures component.root
              return (whole.declares,
                whole.inner.map fun closure : Declaration =>
                  (closure.item?, closure.declares))) =
            .ok (["builder", "for1"],
              [(some "for1Builder", ["for1Builder"])])))) =
      .ok (.ok [("func", [⟨"builder", "string"⟩, ⟨"range", "[]string"⟩])],
        [true]) := by
    decide +kernel
  obtain ⟨⟨catalog, events⟩, parsed, shape⟩ := Except.map_eq_ok.mp shape
  obtain ⟨compiled, components⟩ := Prod.mk.inj shape
  obtain ⟨⟨functions, told⟩, compiled, listed⟩ := Except.map_eq_ok.mp compiled
  obtain ⟨function, rfl, named⟩ := List.map_eq_singleton_iff.mp listed
  obtain ⟨name, parameters⟩ := Prod.mk.inj named
  obtain ⟨component, only, made⟩ := List.map_eq_singleton_iff.mp components
  obtain ⟨signatures, derived, made⟩ :=
    Except.bind_eq_ok.mp (of_decide_eq_true made)
  obtain ⟨whole, declared, made⟩ := Except.bind_eq_ok.mp made
  obtain ⟨outer, inner⟩ := Prod.mk.inj (Except.pure_eq_ok.mp made)
  obtain ⟨closure, inside, within⟩ := List.map_eq_singleton_iff.mp inner
  obtain ⟨item, body⟩ := Prod.mk.inj within
  refine ⟨catalog, events, told, signatures, component, function, whole,
    closure, parsed, compiled,
    derived, only, declared, inside, name, parameters, outer, item, body, ?_⟩
  intro usable
  exact usable.name (by rw [name]; decide)

end Catalog

end Stencil
