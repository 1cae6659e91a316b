import Stencil.Proofs.Spelling
import Stencil.Proofs.Splits

namespace Stencil

open Text

/-! The names that a template chooses: those that it mentions become parameters,
and all of them are identifiers. -/

namespace Construct

def Kind.passedMarkers : Kind → List Marker
  | .placeholder _ arguments =>
      arguments.flatMap fun argument => argument.value.markers
  | _ => []

def Kind.subject? : Kind → Option String
  | .conditional condition | .alternative condition => some condition
  | .loop _ collection _ => some collection
  | _ => none

/-- Somewhere in the tree a name is used that no loop around the place binds. -/
inductive Mentions (root : Construct) (name : String) : Prop
  | marker {around : List Construct} {construct : Construct} {marker : Marker}
      (placed : (around, construct) ∈ root.lineages [])
      (member : marker ∈ construct.markers ++ construct.kind.passedMarkers)
      (declares : marker.Declares name)
      (free : ∀ outer ∈ around ++ [construct], outer.kind.item? ≠ some name) :
        Mentions root name
  | directive {around : List Construct} {construct : Construct}
      (placed : (around, construct) ∈ root.lineages [])
      (subject : construct.kind.subject? = some name)
        (undotted : '.' ∉ name.toList)
      (free : ∀ outer ∈ around, outer.kind.item? ≠ some name) :
        Mentions root name

section Mentioned

variable {callees : Signatures} {name : String}

theorem mem_declaredStrings {markers : List Marker} :
    name ∈ (declaredStrings markers).map Prod.fst ↔ ∃ marker ∈ markers,
    marker.Declares name := by
  simp [declaredStrings, Marker.declares_iff]

theorem mem_argumentNames {target : String} {argument : Argument} :
    name ∈ (argumentNames callees target argument).map Prod.fst ↔
      ∃ marker ∈ argument.value.markers, marker.Declares name := by
  cases value : argument.value with
  | expression marker =>
      cases declared : marker.declared? <;>
        simp [argumentNames, value, declared, AttributeValue.markers,
          Marker.declares_iff, eq_comm]
  | empty | literal | template =>
      simp only [argumentNames, value]
      exact mem_declaredStrings

theorem mem_declaredNames (callees : Signatures) {construct : Construct} :
    name ∈ (construct.declaredNames callees).map Prod.fst ↔
      ∃ marker ∈ construct.markers ++ construct.kind.passedMarkers,
        marker.Declares name := by
  have passed : ∀ target arguments,
      name ∈ (arguments.flatMap (argumentNames callees target)).map Prod.fst ↔
        ∃ marker ∈ (Kind.placeholder target arguments).passedMarkers,
          marker.Declares name := by
    intro target arguments
    rw [List.map_flatMap, List.mem_flatMap]
    simp only [mem_argumentNames, Kind.passedMarkers, List.mem_flatMap]
    constructor
    · rintro ⟨argument, listed, marker, member, declares⟩
      exact ⟨marker, ⟨argument, listed, member⟩, declares⟩
    · rintro ⟨marker, ⟨argument, listed, member⟩, declares⟩
      exact ⟨argument, listed, marker, member, declares⟩
  simp only [declaredNames, List.map_append, List.mem_append, or_and_right,
    exists_or, mem_declaredStrings]
  refine or_congr_right ?_
  cases kind : construct.kind with
  | placeholder target arguments => exact passed target arguments
  | component | loop | conditional | alternative | slot =>
      simp [Kind.passedMarkers]

theorem mem_markerOccurrences {around : List Construct}
    {construct : Construct} :
    name ∈ (construct.markerOccurrences callees (items around)).map
      Occurrence.name ↔
      (∃ marker ∈ construct.markers ++ construct.kind.passedMarkers,
        marker.Declares name) ∧
        ∀ outer ∈ around ++ [construct], outer.kind.item? ≠ some name := by
  rw [← mem_declaredNames callees]
  simp [markerOccurrences, mem_items, or_imp, forall_and]

theorem mem_directiveOccurrences {around : List Construct}
    {construct : Construct} :
    name ∈ (construct.directiveOccurrences (items around)).map Occurrence.name ↔
      construct.kind.subject? = some name ∧ '.' ∉ name.toList ∧
        ∀ outer ∈ around, outer.kind.item? ≠ some name := by
  cases kind : construct.kind <;>
    simp [directiveOccurrences, kind, Kind.subject?, mem_items] <;> grind

/-- The names that occur are those that the tree mentions, whatever is known
about its callees. -/
theorem mentions_iff (callees : Signatures) {root : Construct} :
    root.Mentions name ↔
    name ∈ (root.occurrences callees).map Occurrence.name := by
  have visible : root.inScope [] = (root.lineages []).map fun lineage =>
      (items lineage.1, lineage.2) := root.inScope_eq []
  rw [occurrences, visible, List.flatMap_map, List.flatMap_map, List.map_append,
    List.map_flatMap, List.map_flatMap, List.mem_append, List.mem_flatMap,
    List.mem_flatMap]
  simp only [mem_markerOccurrences, mem_directiveOccurrences]
  constructor
  · rintro (⟨placed, member, declares, free⟩ |
      ⟨placed, subject, undotted, free⟩)
    · exact .inl ⟨_, placed, ⟨_, member, declares⟩, free⟩
    · exact .inr ⟨_, placed, subject, undotted, free⟩
  · rintro (⟨_, placed, ⟨_, member, declares⟩, free⟩ |
      ⟨_, placed, subject, undotted, free⟩)
    · exact .marker placed member declares free
    · exact .directive placed subject undotted free

end Mentioned

section Lineage

mutual
theorem mem_walk_of_lineages (root : Construct) {around : List Construct}
    {lineage : List Construct × Construct}
    (placed : lineage ∈ root.lineages around) :
    ∀ outer ∈ lineage.1 ++ [lineage.2], outer ∈ around ∨ outer ∈ root.walk := by
  obtain ⟨kind, id, span, html, runs, children⟩ := root
  rw [lineages] at placed
  intro outer member
  rcases List.mem_cons.mp placed with rfl | deeper
  · rcases List.mem_append.mp member with above | here
    · exact .inl above
    · rw [List.mem_singleton.mp here]
      exact .inr (mem_walk_self _)
  · rw [walk_eq]
    rcases mem_walk_of_forestLineages children deeper outer member with above |
      below
    · rcases List.mem_append.mp above with further | here
      · exact .inl further
      · exact .inr (List.mem_cons.mpr (.inl (List.mem_singleton.mp here)))
    · exact .inr (List.mem_cons_of_mem _ below)

theorem mem_walk_of_forestLineages (constructs : List Construct)
    {around : List Construct} {lineage : List Construct × Construct}
    (placed : lineage ∈ forestLineages around constructs) :
    ∀ outer ∈ lineage.1 ++ [lineage.2],
      outer ∈ around ∨ outer ∈ constructs.flatMap walk := by
  cases constructs with
  | nil => cases placed
  | cons construct rest =>
      rw [forestLineages] at placed
      rw [List.flatMap_cons]
      intro outer member
      rcases List.mem_append.mp placed with first | later
      · exact (mem_walk_of_lineages construct first outer member).imp_right
          (List.mem_append_left _)
      · exact (mem_walk_of_forestLineages rest later outer member).imp_right
          (List.mem_append_right _)
end

end Lineage

end Construct

theorem Parameter.mem_names_ofConstruct {callees : Signatures}
    {root : Construct} {parameters : List Parameter}
    (derived : ofConstruct callees root = .ok parameters) {name : String} :
    name ∈ parameters.map Parameter.name ↔ root.Mentions name := by
  have listed : ∀ seen : List Parameter,
      name ∈ (firsts seen).map Parameter.name ↔
      name ∈ seen.map Parameter.name := by
    intro seen
    have same := congrArg Option.isSome (find?_firsts seen name)
    rw [List.isSome_find?, List.isSome_find?, Bool.eq_iff_iff] at same
    simpa using same
  rcases ofConstruct_of_uses (Construct.uses_iff.mpr rfl) with ⟨_, same⟩ |
    ⟨error, failed, _⟩
  · obtain rfl := Except.ok.inj (same.symm.trans derived)
    rw [listed, Construct.mentions_iff callees]
    simp only [List.map_append, List.mem_append, List.mem_map,
      List.mem_filterMap]
    constructor
    · rintro (⟨_, ⟨_, ⟨occurrence, member, rfl⟩, found⟩, rfl⟩ |
        ⟨_, ⟨_, ⟨occurrence, member, rfl⟩, found⟩, rfl⟩)
      · obtain ⟨type, _, rfl⟩ := Option.map_eq_some_iff.mp found
        exact ⟨occurrence, member, rfl⟩
      · refine ⟨occurrence, member, ?_⟩
        cases known : occurrence.type with
        | none =>
            simp only [Use.untyped?, Occurrence.use, known, Option.some.injEq]
              at found
            rw [← found]
        | some type => simp [Use.untyped?, Occurrence.use, known] at found
    · rintro ⟨occurrence, member, rfl⟩
      cases known : occurrence.type with
      | none =>
          refine .inr ⟨⟨occurrence.name, "string"⟩,
            ⟨_, ⟨occurrence, member, rfl⟩, ?_⟩, rfl⟩
          simp [Use.untyped?, Occurrence.use, known]
      | some type =>
          refine .inl ⟨⟨occurrence.name, type⟩,
            ⟨_, ⟨occurrence, member, rfl⟩, ?_⟩, rfl⟩
          simp [Use.typed?, Occurrence.use, known]
  · cases failed.symm.trans derived

namespace Text

theorem isIdentifier_of_isPath {text : String} (path : isPath text)
    (undotted : '.' ∉ text.toList) :
    isIdentifier text := by
  rw [isPath, spellsPath, split_of_not_mem undotted, List.all_cons,
    List.all_nil, Bool.and_true] at path
  exact path

end Text

theorem Scope.loop_named {scope : Scope} {attr : Attribute}
    {item collection type : String}
    (read : scope.loop attr = .ok (.loop item collection type)) :
    isIdentifier item ∧ isPath collection := by
  unfold loop at read
  split at read
  · split at read
    · rename_i fits
      split at read
      · cases read
        simp only [Bool.and_eq_true] at fits
        exact ⟨fits.1.2, fits.2⟩
      · cases read
    · cases read
  · cases read

namespace Construct

section Identifiers

variable {scope : Scope} {element : Element} {construct : Construct}
  {name : String}

theorem BuiltFrom.isIdentifier_component
    (built : BuiltFrom scope element construct)
    (kind : construct.kind = .component name) : isIdentifier name := by
  obtain ⟨_, classified⟩ := built.classified
  rw [kind] at classified
  cases classified with
  | component _ _ value => exact (Scope.word_ok value).2

theorem BuiltFrom.isIdentifier_item (built : BuiltFrom scope element construct)
    (item : construct.kind.item? = some name) : isIdentifier name := by
  obtain ⟨_, classified⟩ := built.classified
  cases kind : construct.kind with
  | loop bound collection type =>
      rw [kind] at item classified
      obtain rfl := Option.some.inj item
      cases classified with
      | loop _ value => exact (Scope.loop_named value).1
  | component | conditional | alternative | placeholder | slot =>
      rw [kind] at item
      cases item

theorem BuiltFrom.isPath_subject (built : BuiltFrom scope element construct)
    (subject : construct.kind.subject? = some name) : isPath name := by
  obtain ⟨_, classified⟩ := built.classified
  cases kind : construct.kind with
  | loop bound collection type =>
      rw [kind] at subject classified
      obtain rfl := Option.some.inj subject
      cases classified with
      | loop _ value => exact (Scope.loop_named value).2
  | conditional condition =>
      rw [kind] at subject classified
      obtain rfl := Option.some.inj subject
      cases classified with
      | conditional _ value => exact (Scope.word_ok value).2
  | alternative condition =>
      rw [kind] at subject classified
      obtain rfl := Option.some.inj subject
      cases classified with
      | alternative _ value => exact (Scope.word_ok value).2
  | component | placeholder | slot =>
      rw [kind] at subject
      cases subject

theorem BuiltFrom.wellNamed (built : BuiltFrom scope element construct) :
    ∀ marker ∈ construct.markers ++ construct.kind.passedMarkers,
      marker.WellNamed := by
  intro marker member
  rcases List.mem_append.mp member with own | passed
  · exact built.markers_wellNamed marker own
  · cases kind : construct.kind with
    | placeholder target arguments =>
        rw [kind] at passed
        obtain ⟨argument, listed, inside⟩ := List.mem_flatMap.mp passed
        exact built.arguments_wellNamed kind argument listed marker inside
    | component | loop | conditional | alternative | slot =>
        rw [kind] at passed
        cases passed

theorem Mentions.isIdentifier {root : Construct} (mentions : root.Mentions name)
    (built : ∀ construct ∈ root.walk, ∃ scope element,
      BuiltFrom scope element construct) :
    isIdentifier name := by
  have walked : ∀ {around construct}, (around, construct) ∈ root.lineages [] →
      construct ∈ root.walk := by
    intro around construct placed
    rw [← lineages_map_snd root []]
    exact List.mem_map_of_mem placed
  cases mentions with
  | marker placed member declares free =>
      obtain ⟨_, _, made⟩ := built _ (walked placed)
      exact made.wellNamed _ member name (Marker.declares_iff.mp declares)
  | directive placed subject undotted free =>
      obtain ⟨_, _, made⟩ := built _ (walked placed)
      exact isIdentifier_of_isPath (made.isPath_subject subject) undotted

end Identifiers

end Construct

end Stencil
