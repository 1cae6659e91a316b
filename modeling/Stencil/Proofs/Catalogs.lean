import Stencil.Proofs.Components
import Stencil.Proofs.Contraction

namespace Stencil

open Text

/-! A catalog that was read has one component for each element that declares
one. No such element lies inside another, and components call others than
themselves. -/

def Element.declares (element : Element) : Bool :=
  element.tag.attributes.any fun attr => sameIgnoringCase attr.name "_component"

theorem Element.isSome_attribute? (element : Element) :
    (element.attribute? Directive.component.name).isSome =
      element.declares := by
  rw [attribute?, List.isSome_find?]
  rfl

namespace Node

mutual
theorem lineages_around (node : Node) {around : List Element}
    {lineage : List Element × Element} {outer : Element}
    (member : lineage ∈ node.lineages around) (outside : outer ∈ lineage.1) :
    outer ∈ around ∨ (outer ∈ (node.lineages around).map Prod.snd ∧
      lineage.2 ∈ (forestLineages [] outer.children).map Prod.snd) := by
  cases node with
  | element tag tagSpan span children =>
      rw [lineages] at member ⊢
      rcases List.mem_cons.mp member with rfl | below
      · exact .inl outside
      · rcases forestLineages_around children below outside with before |
          ⟨inside, under⟩
        · rcases List.mem_append.mp before with above | here
          · exact .inl above
          · obtain rfl := List.mem_singleton.mp here
            rw [forestLineages_eq_map] at below
            obtain ⟨entry, listed, rfl⟩ := List.mem_map.mp below
            exact .inr ⟨List.mem_cons_self ..,
              List.mem_map.mpr ⟨entry, listed, rfl⟩⟩
        · exact .inr ⟨List.mem_cons_of_mem _ inside, under⟩
  | text | comment | doctype => cases member

theorem forestLineages_around (nodes : List Node) {around : List Element}
    {lineage : List Element × Element} {outer : Element}
    (member : lineage ∈ forestLineages around nodes)
    (outside : outer ∈ lineage.1) :
    outer ∈ around ∨ (outer ∈ (forestLineages around nodes).map Prod.snd ∧
      lineage.2 ∈ (forestLineages [] outer.children).map Prod.snd) := by
  cases nodes with
  | nil => cases member
  | cons node rest =>
      rw [forestLineages, List.map_append] at *
      rcases List.mem_append.mp member with here | behind
      · exact (lineages_around node here outside).imp_right
          fun found => ⟨List.mem_append_left _ found.1, found.2⟩
      · exact (forestLineages_around rest behind outside).imp_right
          fun found => ⟨List.mem_append_right _ found.1, found.2⟩
end

end Node

namespace Scope

variable {scope : Scope} {element : Element}

theorem target?_ok {name target : String}
    (found : scope.target? name = some target) :
    target ∈ scope.known ∧ scope.component ≠ some target := by
  obtain ⟨known, other⟩ := List.mem_filter.mp (List.mem_of_find?_eq_some found)
  exact ⟨known, by simpa using other⟩

theorem undeclared_of_kind? {kind : Option Construct.Kind}
    (classified : scope.kind? element false = .ok kind) :
    element.declares = false := by
  rw [← Element.isSome_attribute?, Bool.eq_false_iff]
  intro declares
  obtain ⟨attr, carries⟩ := Option.isSome_iff_exists.mp declares
  have first : Directive.of? element = some (.component, attr) := by
    simp [Directive.of?, Directive.all, carries]
  simp [kind?, first] at classified

end Scope

namespace Construct

variable {scope : Scope} {construct : Construct} {element : Element}

mutual
theorem ofNode_undeclared (node : Node) {constructs : List Construct}
    {before after : Progress} {around : List Element}
    (run : ofNode scope node before = .ok (constructs, after)) :
    ∀ lineage ∈ node.lineages around, lineage.2.declares = false := by
  cases node with
  | element tag tagSpan span children =>
      let element : Element := ⟨tag, tagSpan, span, children⟩
      have ran : ofNode scope element.node before = .ok (constructs, after) :=
        run
      obtain ⟨kind, classified, inner, first, last, below⟩ : ∃ kind,
          scope.kind? element false = .ok kind ∧ ∃ inner first last,
            ofNodes scope children first = .ok (inner, last) := by
        rcases ofNode_ok ran with ⟨classified, below⟩ |
          ⟨kind, _, classified, _, built⟩
        · exact ⟨none, classified, _, _, _, below⟩
        · obtain ⟨_, _, _, _, _, _, below, _⟩ := built.exists_assembled
          exact ⟨some kind, classified, _, _, _, below⟩
      intro lineage member
      rw [Node.lineages] at member
      rcases List.mem_cons.mp member with rfl | under
      · exact Scope.undeclared_of_kind? classified
      · exact ofNodes_undeclared children below lineage under
  | text | comment | doctype => nofun

theorem ofNodes_undeclared (nodes : List Node) {constructs : List Construct}
    {before after : Progress} {around : List Element}
    (run : ofNodes scope nodes before = .ok (constructs, after)) :
    ∀ lineage ∈ Node.forestLineages around nodes,
      lineage.2.declares = false := by
  cases nodes with
  | nil => nofun
  | cons node rest =>
      obtain ⟨first, more, middle, rfl, ran, others⟩ := ofNodes_cons_ok run
      intro lineage member
      rw [Node.forestLineages] at member
      rcases List.mem_append.mp member with here | behind
      · exact ofNode_undeclared node ran lineage here
      · exact ofNodes_undeclared rest others lineage behind
end

theorem BuiltFrom.undeclared_inside
    (built : BuiltFrom scope element construct) :
    ∀ inner ∈ (Node.forestLineages [] element.children).map Prod.snd,
      inner.declares = false := by
  obtain ⟨_, _, _, _, _, _, run, _⟩ := built.exists_assembled
  intro inner member
  obtain ⟨lineage, listed, rfl⟩ := List.mem_map.mp member
  exact ofNodes_undeclared element.children run lineage listed

theorem BuiltFrom.declares_of_component
    (built : BuiltFrom scope element construct) {name : String}
    (kind : construct.kind = .component name) : element.declares = true := by
  obtain ⟨_, classified⟩ := built.classified
  rw [kind] at classified
  cases classified with
  | component _ directive _ =>
      rw [← Element.isSome_attribute?, Directive.attribute?_of_of? directive]
      rfl

theorem BuiltFrom.only_root (built : BuiltFrom scope element construct) :
    ∀ child ∈ construct.children, ∀ inner ∈ child.walk, ∀ name,
      inner.kind ≠ .component name := by
  intro child inside inner walked name kind
  obtain ⟨nearest, builds, kept⟩ := built.children
  rw [kept] at inside
  obtain ⟨below, under, made⟩ :=
    builds.exists_of_mem_right ((Kind.kept_sublist _ nearest).subset inside)
  have descendant := Scope.mem_descendants_of_nearest under
  obtain ⟨origin, at_or_below, found⟩ := made.walk inner walked
  have inRoot : origin ∈ element.descendants.map Prod.snd := by
    rcases List.mem_cons.mp at_or_below with rfl | deeper
    · exact descendant
    · exact Element.mem_walk_of_descendant descendant deeper
  rw [Element.descendants, Element.elements,
    ← Node.forestLineages_map_snd element.children [] 1] at inRoot
  simpa [found.declares_of_component kind] using built.undeclared_inside origin
    inRoot

theorem BuiltFrom.target_ok (built : BuiltFrom scope element construct)
    {target : String} {arguments : List Argument}
    (kind : construct.kind = .placeholder target arguments) :
    target ∈ scope.known ∧ scope.component ≠ some target := by
  obtain ⟨_, classified⟩ := built.classified
  rw [kind] at classified
  cases classified with
  | placeholder _ _ known _ => exact Scope.target?_ok known
  | call _ known _ => exact Scope.target?_ok known

end Construct

namespace Catalog

namespace Definition

/-- The definitions of a file: the elements of its document that declare a
component, in document order. -/
def inDocument (file : TemplateFile) (document : Document) : List Definition :=
  (((Node.forestLineages [] document.nodes).map Prod.snd).filter
    Element.declares).map
    fun element => ⟨file.label, Source.ofText file.text, element⟩

theorem all_eq {file : TemplateFile} {definitions : List Definition}
    (found : all file = .ok definitions) :
    ∃ document, Document.parse (Source.ofText file.text) = .ok document ∧
      inDocument file document = definitions := by
  unfold all at found
  dsimp only at found
  split at found
  · cases found
  · rename_i document parsed
    obtain rfl := Except.ok.inj found
    refine ⟨document, parsed, ?_⟩
    unfold inDocument Document.select Document.descendants Document.elements
    rw [Node.forestLineages_map_snd _ _ 1]
    simp only [Element.isSome_attribute?]

theorem found_eq {files : List TemplateFile} {found : List (List Definition)}
    (all : files.mapM Definition.all = .ok found) :
    ∃ documents, List.Forall₂ (fun file document =>
        Document.parse (Source.ofText file.text) =
          .ok document) files documents ∧
      List.zipWith inDocument files documents = found := by
  have each := Except.forall₂_of_mapM all
  clear all
  induction each with
  | nil => exact ⟨[], .nil, rfl⟩
  | cons here _ induction =>
      obtain ⟨document, parsed, same⟩ := all_eq here
      obtain ⟨documents, others, rest⟩ := induction
      exact ⟨document :: documents, .cons parsed others,
        by rw [List.zipWith_cons_cons, same, rest]⟩

/-- The component is what the definition declares: it goes by the trimmed value
of the attribute, which is an identifier, and its tree is that of the
element. -/
structure Gives (known : List String) (definition : Definition)
    (component : Component) : Prop where
  file_eq : component.file = definition.file
  named : ∃ attr, definition.element.attribute? "_component" = some attr ∧
    component.name = trimmed attr.text
  identifier : isIdentifier component.name
  kind : component.root.kind = .component component.name
  built : Construct.BuiltFrom ⟨definition.source, known, some component.name⟩
    definition.element
    component.root

variable {known : List String} {definition : Definition}

theorem gives_of_component {result : List Component × List Event}
    (declares : (definition.element.attribute? Directive.component.name).isSome)
    (made : definition.component known = .ok result) :
    ∃ component, result.1 = [component] ∧ definition.Gives known component := by
  obtain ⟨components, events⟩ := result
  obtain ⟨root, only⟩ := component_eq declares made
  obtain ⟨tree, told, ran, each⟩ := component_ok made
  obtain ⟨rfl, _, kind⟩ := each _ (only ▸ List.mem_singleton_self _)
  have built := Construct.build_ok ran
  obtain ⟨_, classified⟩ := built.classified
  obtain ⟨name, named, declared⟩ := classified.component_of_attribute declares
  obtain rfl : definition.name = name :=
    Construct.Kind.component.inj (kind.symm.trans named)
  rw [declared] at built
  obtain ⟨attr, carries, value⟩ := Option.map_eq_some_iff.mp declared
  refine ⟨_, only, rfl, ⟨attr, carries, value.symm⟩, ?_, kind, built⟩
  rw [named] at classified
  cases classified with
  | component _ _ value => exact (Scope.word_ok value).2

theorem forall₂_gives {definitions : List Definition}
    {built : List (List Component × List Event)}
    (declare : ∀ definition ∈ definitions,
      (definition.element.attribute? Directive.component.name).isSome)
    (builds :
      List.Forall₂ (fun definition result => component known definition =
        .ok result)
      definitions built) :
    List.Forall₂ (Gives known) definitions (built.flatMap Prod.fst) := by
  induction builds with
  | nil => exact .nil
  | @cons definition result _ _ here _ induction =>
      obtain ⟨component, only, gives⟩ :=
        gives_of_component (declare definition (List.mem_cons_self ..)) here
      rw [List.flatMap_cons, only]
      exact .cons gives
        (induction fun other member => declare other
          (List.mem_cons_of_mem _ member))

end Definition

/-- What holds of a catalog and the documents of the files it was read from. -/
structure Lawful (files : List TemplateFile) (documents : List Document)
    (catalog : Catalog) :
    Prop where
  read : List.Forall₂ (fun file document =>
    Document.parse (Source.ofText file.text) = .ok document) files documents
  components : List.Forall₂ (Definition.Gives catalog.names)
    (List.zipWith Definition.inDocument files documents).flatten
      catalog.components
  distinct : catalog.names.Nodup
  unnested : ∀ document ∈ documents,
    ∀ lineage ∈ Node.forestLineages [] document.nodes,
    lineage.2.declares → ∀ outer ∈ lineage.1, ¬ outer.declares
  only_root : ∀ component ∈ catalog.components,
    ∀ child ∈ component.root.children,
    ∀ construct ∈ child.walk, ∀ name, construct.kind ≠ .component name
  calls : ∀ component ∈ catalog.components, ∀ construct ∈ component.root.walk,
    ∀ target arguments, construct.kind = .placeholder target arguments →
      ∃ other ∈ catalog.components,
        other.name = target ∧ other.name ≠ component.name
  slots : ∀ component ∈ catalog.components, ∀ construct ∈ component.root.walk,
    ∀ target arguments, construct.kind = .placeholder target arguments →
      ∀ child ∈ construct.children, ∃ name, child.kind = .slot name

variable {files : List TemplateFile} {catalog : Catalog} {events : List Event}

theorem exists_gives (parsed : parse files = .ok (catalog, events)) :
    ∃ documents, List.Forall₂ (fun file document =>
        Document.parse (Source.ofText file.text) =
          .ok document) files documents ∧
      List.Forall₂ (Definition.Gives catalog.names)
        (List.zipWith Definition.inDocument files documents).flatten
          catalog.components := by
  obtain ⟨found, declared, built, all, accepted, builds, components⟩ :=
    parse_steps parsed
  obtain ⟨documents, read, same⟩ := Definition.found_eq all
  have declare := Definition.found_declare all
  have each := Except.forall₂_of_mapM builds
  have known : declared.map Definition.name = catalog.names := by
    rw [Definition.declared_eq accepted, List.nil_append, names, components,
      Definition.names_of_components declare each]
  rw [known] at each
  refine ⟨documents, read, ?_⟩
  rw [same, components]
  exact Definition.forall₂_gives declare each

theorem exists_origin (parsed : parse files = .ok (catalog, events))
    {component : Component} (member : component ∈ catalog.components)
    {construct : Construct} (inside : construct ∈ component.root.walk) :
    ∃ source element,
      Construct.BuiltFrom ⟨source, catalog.names, some component.name⟩ element
        construct := by
  obtain ⟨_, _, gives⟩ := exists_gives parsed
  obtain ⟨definition, _, given⟩ := gives.exists_of_mem_right member
  obtain ⟨element, _, made⟩ := given.built.walk construct inside
  exact ⟨definition.source, element, made⟩

theorem exists_target (parsed : parse files = .ok (catalog, events))
    {component : Component} (member : component ∈ catalog.components)
    {construct : Construct} (inside : construct ∈ component.root.walk)
    {target : String} {arguments : List Argument}
    (kind : construct.kind = .placeholder target arguments) :
    ∃ other ∈ catalog.components,
      other.name = target ∧ other.name ≠ component.name := by
  obtain ⟨_, _, made⟩ := exists_origin parsed member inside
  obtain ⟨known, different⟩ := made.target_ok kind
  obtain ⟨other, listed, rfl⟩ := List.mem_map.mp known
  exact ⟨other, listed, rfl, fun same => different (congrArg some same.symm)⟩

/-- A catalog that was read holds one component for each element that declares
one, in the order of the files and of their documents. The names are
identifiers, all different; no declaring element lies inside another; in each
tree the root alone is a component; and a placeholder calls another component of
the catalog and has slots only. -/
theorem parse_lawful (parsed : parse files = .ok (catalog, events)) :
    ∃ documents, Lawful files documents catalog := by
  obtain ⟨documents, read, gives⟩ := exists_gives parsed
  refine ⟨documents, read, gives, nodup_names parsed, ?_, ?_, ?_, ?_⟩
  · intro document listed lineage member declares outer around declared
    have documents_eq : (files.zip documents).map Prod.snd = documents :=
      List.map_snd_zip (Nat.le_of_eq read.length_eq.symm)
    rw [← documents_eq] at listed
    obtain ⟨⟨file, _⟩, pair, rfl⟩ := List.mem_map.mp listed
    obtain ⟨inside, under⟩ :=
      (Node.forestLineages_around _ member around).resolve_left
      List.not_mem_nil
    have defined : (⟨file.label, Source.ofText file.text, outer⟩ : Definition) ∈
        (List.zipWith Definition.inDocument files documents).flatten := by
      rw [← List.map_uncurry_zip_eq_zipWith, List.mem_flatten]
      exact ⟨_, List.mem_map_of_mem pair,
        List.mem_map.mpr ⟨outer, List.mem_filter.mpr ⟨inside, declared⟩, rfl⟩⟩
    obtain ⟨component, _, given⟩ := gives.exists_of_mem_left defined
    simpa [declares] using given.built.undeclared_inside lineage.2 under
  · intro component member
    obtain ⟨_, _, given⟩ := gives.exists_of_mem_right member
    exact given.built.only_root
  · intro component member construct inside target arguments kind
    exact exists_target parsed member inside kind
  · intro component member construct inside target arguments kind child under
    obtain ⟨_, _, made⟩ := exists_origin parsed member inside
    have called : construct.kind.target? ≠ none := by
      simp [kind, Construct.Kind.target?]
    exact Construct.Kind.isSlot_iff.mp
      (made.slots_of_placeholder called child under)

/-- Blanks around a name, the attribute in another case, two components in one
file below a plain element, and calls by tag and by attribute, one of them to a
component of an earlier file. -/
theorem parse_lawful_files :
    let files : List TemplateFile :=
      [⟨"page.html",
          "<main _component=\" Page \"><card>a<i _slot=\"body\">b</i></card>" ++
          "</main>"⟩,
        ⟨"parts.html", "<p><b _COMPONENT=\"Card\">$slot('body')</b>" ++
          "<u _component='Note'><i _if=\"on\"><em _placeholder=\"page\"/>" ++
          "</i></u></p>"⟩]
    ∃ catalog events documents, parse files = .ok (catalog, events) ∧
      (catalog.components.map fun component =>
        (component.name, component.file, component.root.targets)) =
        [("Page", "page.html", ["Card"]), ("Card", "parts.html", []),
          ("Note", "parts.html", ["Page"])] ∧
      Lawful files documents catalog := by
  intro files
  have shape :
      (parse files).map (fun result => result.1.components.map fun component =>
        (component.name, component.file, component.root.targets)) =
        .ok [("Page", "page.html", ["Card"]), ("Card", "parts.html", []),
          ("Note", "parts.html", ["Page"])] := by decide +kernel
  obtain ⟨⟨catalog, events⟩, parsed, listed⟩ := Except.map_eq_ok.mp shape
  obtain ⟨documents, lawful⟩ := parse_lawful parsed
  exact ⟨catalog, events, documents, parsed, listed, lawful⟩

end Catalog

end Stencil
