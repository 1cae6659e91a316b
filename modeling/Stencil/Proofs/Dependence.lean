import Stencil.Proofs.Catalogs
import Stencil.Proofs.Linking

namespace Stencil

open Text

/-! What a construct tree and its code depend on: the targets of the names in
the markup, and the signatures of the components that are called. -/

/-- The names by which an element may refer to a component. -/
def Element.mentions (element : Element) : List String :=
  element.name ::
    (element.tag.attributes.filter fun attr =>
      sameIgnoringCase attr.name "_placeholder").map
      fun attr => trimmed attr.text

theorem Element.mem_mentions_of_of? {element : Element} {attr : Attribute}
    (directive : Directive.of? element = some (.placeholder, attr)) :
    trimmed attr.text ∈ element.mentions := by
  have carried := Directive.attribute?_of_of? directive
  have named : sameIgnoringCase attr.name "_placeholder" :=
    List.find?_some (p := fun attr : Attribute => sameIgnoringCase attr.name _)
      carried
  refine List.mem_cons_of_mem _ (List.mem_map_of_mem
    (List.mem_filter.mpr ⟨?_, named⟩))
  exact List.mem_of_find?_eq_some carried

section Trees

variable {source : Source} {known others : List String}
  {component : Option String}

namespace Scope

theorem kind?_congr {element : Element} (isRoot : Bool)
    (same : ∀ name ∈ element.mentions,
      target? ⟨source, known, component⟩ name =
        target? ⟨source, others, component⟩ name) :
    kind? ⟨source, known, component⟩ element isRoot =
      kind? ⟨source, others, component⟩ element isRoot := by
  unfold kind?
  cases directive : Directive.of? element with
  | none =>
      dsimp only
      rw [same element.name (List.mem_cons_self ..)]
      rfl
  | some pair =>
      obtain ⟨which, attr⟩ := pair
      cases which with
      | placeholder =>
          cases value : word ⟨source, known, component⟩ attr isIdentifier with
          | error problem =>
              have other : word ⟨source, others, component⟩ attr isIdentifier =
                  .error problem :=
                value
              simp only [value, other]
              rfl
          | ok name =>
              have other : word ⟨source, others, component⟩ attr isIdentifier =
                .ok name := value
              have spelled := (word_ok value).1
              have found :=
                same name (spelled ▸ Element.mem_mentions_of_of? directive)
              simp only [value, other, bind, Except.bind]
              rw [found]
              rfl
      | component | loop | conditional | alternative | slot => rfl

end Scope

namespace Construct

mutual
theorem ofNode_congr (node : Node) {around : List Element}
    (same : ∀ lineage ∈ node.lineages around, ∀ name ∈ lineage.2.mentions,
      Scope.target? ⟨source, known, component⟩ name =
        Scope.target? ⟨source, others, component⟩ name) :
    ofNode ⟨source, known, component⟩ node =
      ofNode ⟨source, others, component⟩ node := by
  cases node with
  | element tag tagSpan span children =>
      rw [Node.lineages] at same
      have here := Scope.kind?_congr false (same _ (List.mem_cons_self ..))
      have inside := ofNodes_congr children
        fun lineage member => same lineage (List.mem_cons_of_mem _ member)
      rw [ofNode, ofNode]
      dsimp only
      rw [here, inside]
  | text | comment | doctype => rfl

/-- The names that are known matter only by what the names in the markup refer
to. -/
theorem ofNodes_congr (nodes : List Node) {around : List Element}
    (same : ∀ lineage ∈ Node.forestLineages around nodes,
      ∀ name ∈ lineage.2.mentions,
      Scope.target? ⟨source, known, component⟩ name =
        Scope.target? ⟨source, others, component⟩ name) :
    ofNodes ⟨source, known, component⟩ nodes =
      ofNodes ⟨source, others, component⟩ nodes := by
  cases nodes with
  | nil => rfl
  | cons node rest =>
      rw [Node.forestLineages] at same
      have first := ofNode_congr node
        fun lineage member => same lineage (List.mem_append_left _ member)
      have more := ofNodes_congr rest
        fun lineage member => same lineage (List.mem_append_right _ member)
      rw [ofNodes, ofNodes, first, more]
end

theorem build_congr {root : Element}
    (same : ∀ lineage ∈ root.node.lineages [], ∀ name ∈ lineage.2.mentions,
      Scope.target? ⟨source, known, declaredName? root⟩ name =
        Scope.target? ⟨source, others, declaredName? root⟩ name) :
    build source root known = build source root others := by
  rw [Element.node, Node.lineages] at same
  have here := Scope.kind?_congr true (same _ (List.mem_cons_self ..))
  have inside := ofNodes_congr root.children
    fun lineage member => same lineage (List.mem_cons_of_mem _ member)
  unfold build ofRoot
  rw [here, inside]

end Construct

end Trees

section Files

namespace TemplateFile

def elements (file : TemplateFile) : List Element :=
  match Document.parse (Source.ofText file.text) with
  | .error _ => []
  | .ok document => document.descendants.map Prod.snd

theorem elements_eq {file : TemplateFile} {document : Document}
    (parsed : Document.parse (Source.ofText file.text) = .ok document) :
    file.elements = document.descendants.map Prod.snd := by
  rw [elements, parsed]

def declared (file : TemplateFile) : List String :=
  file.elements.filterMap Construct.declaredName?

def mentioned (file : TemplateFile) : List String :=
  file.elements.flatMap Element.mentions

end TemplateFile

theorem Element.mem_descendants_of_lineages {element inner : Element}
    (member : inner ∈ (element.node.lineages []).map Prod.snd) :
    inner = element ∨ inner ∈ element.descendants.map Prod.snd := by
  rw [Element.node, Node.lineages, List.map_cons] at member
  rcases List.mem_cons.mp member with rfl | below
  · exact .inl rfl
  · rw [Node.forestLineages_map_snd _ _ 1] at below
    exact .inr below

namespace Catalog.Definition

theorem names_of_declaring (file : String) (source : Source)
    (elements : List Element) :
    ((elements.filter fun element =>
      (element.attribute? Directive.component.name).isSome).map fun element =>
        (⟨file, source, element⟩ : Definition)).map name =
      elements.filterMap Construct.declaredName? := by
  induction elements with
  | nil => rfl
  | cons element rest induction =>
      cases carried : element.attribute? Directive.component.name with
      | none => simp_all [Construct.declaredName?]
      | some attr => simp_all [Construct.declaredName?, name]

theorem elements_of_all {file : TemplateFile} {definitions : List Definition}
    (found : all file = .ok definitions) :
    definitions.map name = file.declared ∧ ∀ definition ∈ definitions,
      ∀ inner ∈ (definition.element.node.lineages []).map Prod.snd,
        inner ∈ file.elements := by
  unfold all at found
  dsimp only at found
  split at found
  · cases found
  · rename_i document parsed
    obtain rfl := Except.ok.inj found
    rw [TemplateFile.declared, TemplateFile.elements_eq parsed]
    refine ⟨names_of_declaring _ _ _, ?_⟩
    intro definition member inner inside
    obtain ⟨element, selected, rfl⟩ := List.mem_map.mp member
    have listed := List.mem_of_mem_filter selected
    rcases Element.mem_descendants_of_lineages inside with rfl | below
    · exact listed
    · exact Element.mem_walk_of_descendant listed below

theorem names_of_found {files : List TemplateFile}
    {found : List (List Definition)}
    (all : files.mapM Definition.all = .ok found) :
    found.flatten.map name = files.flatMap TemplateFile.declared := by
  have each := Except.forall₂_of_mapM all
  clear all
  induction each with
  | nil => rfl
  | cons here _ induction =>
      rw [List.flatten_cons, List.map_append, induction,
        (elements_of_all here).1, List.flatMap_cons]

theorem mem_elements_of_found {files : List TemplateFile}
    {found : List (List Definition)}
    (all : files.mapM Definition.all = .ok found) {definition : Definition}
    (listed : definition ∈ found.flatten) : ∃ file ∈ files,
      ∀ inner ∈ (definition.element.node.lineages []).map Prod.snd,
        inner ∈ file.elements := by
  obtain ⟨definitions, some, inFile⟩ := List.mem_flatten.mp listed
  obtain ⟨file, inFiles, defines⟩ :=
    (Except.forall₂_of_mapM all).exists_of_mem_right some
  exact ⟨file, inFiles, (elements_of_all defines).2 definition inFile⟩

theorem declare_of_nodup {earlier definitions : List Definition}
    (apart : ((earlier ++ definitions).map name).Nodup) :
    definitions.foldlM declare earlier = .ok (earlier ++ definitions) := by
  induction definitions generalizing earlier with
  | nil => rw [List.append_nil]; rfl
  | cons definition rest induction =>
      have new :
          earlier.find? (fun candidate => candidate.name == definition.name) =
            none := by
        rw [List.map_append, List.map_cons, List.nodup_append] at apart
        rw [List.find?_eq_none]
        intro candidate member same
        exact apart.2.2 _ (List.mem_map_of_mem member) _ (List.mem_cons_self ..)
          (by simpa using same)
      have step : declare earlier definition =
          .ok (earlier ++ [definition]) := by
        rw [declare, new]
      rw [List.append_cons] at apart ⊢
      rw [List.foldlM_cons, step]
      exact induction apart

theorem component_congr {known others : List String} {definition : Definition}
    (same : Construct.build definition.source definition.element known =
      Construct.build definition.source definition.element others) :
    definition.component known = definition.component others := by
  unfold component
  rw [same]

end Catalog.Definition

/-- Files are read where all their documents can be, the names that they declare
are all different, and each definition has a tree. -/
theorem Catalog.parse_eq_ok {files : List TemplateFile} {catalog : Catalog}
    {events : List Event} :
    parse files = .ok (catalog, events) ↔ ∃ found built,
      files.mapM Definition.all = .ok found ∧
      (found.flatten.map Definition.name).Nodup ∧
      found.flatten.mapM (Definition.component
        (found.flatten.map Definition.name)) = .ok built ∧
      catalog.components = built.flatMap Prod.fst ∧
      events = built.flatMap Prod.snd := by
  constructor
  · intro parsed
    unfold parse at parsed
    obtain ⟨found, all, parsed⟩ := Except.bind_eq_ok.mp parsed
    obtain ⟨declared, accepted, parsed⟩ := Except.bind_eq_ok.mp parsed
    obtain ⟨built, builds, parsed⟩ := Except.bind_eq_ok.mp parsed
    obtain ⟨rfl, rfl⟩ := Prod.mk.inj (Except.pure_eq_ok.mp parsed)
    have start : (([] : List Definition).map Definition.name).Nodup :=
      List.nodup_nil
    have apart := Definition.nodup_of_declare start accepted
    obtain rfl := Definition.declared_eq accepted
    exact ⟨found, built, all, apart, builds, rfl, rfl⟩
  · rintro ⟨found, built, all, apart, builds, components, rfl⟩
    obtain ⟨_⟩ := catalog
    obtain rfl := components
    unfold parse
    refine Except.bind_eq_ok.mpr ⟨found, all, ?_⟩
    refine Except.bind_eq_ok.mpr
      ⟨found.flatten, Definition.declare_of_nodup apart, ?_⟩
    exact Except.bind_eq_ok.mpr ⟨built, builds, rfl⟩

end Files

section Code

variable {signatures others : Signatures}

namespace Construct

theorem declaredNames_congr {construct : Construct}
    (same : ∀ target, construct.kind.target? = some target →
      signatures.get? target = others.get? target) :
    construct.declaredNames signatures = construct.declaredNames others := by
  unfold declaredNames
  congr 1
  cases kind : construct.kind with
  | placeholder target arguments =>
      have known := same target (by rw [kind]; rfl)
      dsimp only
      congr 1
      funext argument
      unfold argumentNames forwardedType
      rw [known]
  | component | loop | conditional | alternative | slot => rfl

theorem mem_walk_of_inScope {root : Construct} {entry : List String × Construct}
    (member : entry ∈ root.inScope []) : entry.2 ∈ root.walk := by
  have visible := root.inScope_eq []
  rw [← lineages_map_snd root []]
  change root.inScope [] = _ at visible
  rw [visible] at member
  obtain ⟨lineage, listed, rfl⟩ := List.mem_map.mp member
  exact List.mem_map_of_mem listed

theorem occurrences_congr {root : Construct}
    (same : ∀ target ∈ root.targets,
      signatures.get? target = others.get? target) :
    root.occurrences signatures = root.occurrences others := by
  unfold occurrences
  dsimp only
  congr 1
  apply List.flatMap_congr
  intro entry member
  unfold markerOccurrences
  rw [declaredNames_congr]
  intro target called
  exact same target (List.mem_filterMap.mpr
    ⟨entry.2, mem_walk_of_inScope member, called⟩)

end Construct

theorem Parameter.ofConstruct_congr {root : Construct}
    (same : ∀ target ∈ root.targets,
      signatures.get? target = others.get? target) :
    ofConstruct signatures root = ofConstruct others root := by
  unfold ofConstruct
  rw [Construct.occurrences_congr same]

/-- The component whose signature the code of a construct of this kind needs. -/
def Construct.Kind.callee? : Construct.Kind → Option String
  | .component name => some name
  | .placeholder target _ => some target
  | _ => none

namespace Declaration

theorem content_congr {construct : Construct} {builder : String}
    {inner : List Declaration}
    (same : ∀ name, construct.kind.callee? = some name →
      signatures.get? name = others.get? name) :
    content signatures construct builder inner =
      content others construct builder inner := by
  unfold content
  cases kind : construct.kind with
  | placeholder target arguments =>
      dsimp only
      unfold Call.link
      rw [same target (by rw [kind]; rfl)]
  | component | loop | conditional | alternative | slot => rfl

theorem frame_congr {kind : Construct.Kind} {name html : String}
    (same : ∀ name, kind.callee? = some name →
        signatures.get? name = others.get? name) :
    frame signatures kind name html = frame others kind name html := by
  unfold frame
  cases kind with
  | component component =>
      dsimp only
      rw [same component rfl]
  | placeholder | loop | conditional | alternative | slot => rfl

mutual
theorem ofConstruct_congr (root : Construct)
    (same : ∀ construct ∈ root.walk, ∀ name,
      construct.kind.callee? = some name →
      signatures.get? name = others.get? name) :
    ofConstruct signatures root = ofConstruct others root := by
  obtain ⟨kind, id, span, html, runs, children⟩ := root
  have here := same _ (Construct.mem_walk_self _)
  have below := ofConstructs_congr children fun child inside construct member =>
    same construct (Construct.mem_walk_of_child inside member)
  rw [ofConstruct, ofConstruct, below]
  apply congrArg (ofConstructs others children >>= ·)
  funext inner
  dsimp only
  rw [content_congr here, frame_congr here]

/-- The code of a tree depends on the signatures of the components that it
calls, and on its own. -/
theorem ofConstructs_congr (constructs : List Construct)
    (same : ∀ root ∈ constructs, ∀ construct ∈ root.walk, ∀ name,
      construct.kind.callee? = some name →
      signatures.get? name = others.get? name) :
    ofConstructs signatures constructs = ofConstructs others constructs := by
  cases constructs with
  | nil => rfl
  | cons construct rest =>
      have first :=
        ofConstruct_congr construct (same construct (List.mem_cons_self ..))
      have more := ofConstructs_congr rest
        fun other member => same other (List.mem_cons_of_mem _ member)
      rw [ofConstructs, ofConstructs, first, more]
end

end Declaration

namespace Catalog

variable {files : List TemplateFile} {catalog : Catalog} {events : List Event}

theorem mem_names_of_callee? (parsed : parse files = .ok (catalog, events))
    {component : Component} (member : component ∈ catalog.components)
    {construct : Construct} (inside : construct ∈ component.root.walk)
    {name : String} (called : construct.kind.callee? = some name) :
    name ∈ catalog.names := by
  cases kind : construct.kind with
  | placeholder target arguments =>
      rw [kind] at called
      obtain rfl := Option.some.inj called
      obtain ⟨other, listed, rfl, _⟩ := exists_target parsed member inside kind
      exact List.mem_map_of_mem listed
  | component own =>
      rw [kind] at called
      obtain rfl := Option.some.inj called
      obtain ⟨_, _, gives⟩ := exists_gives parsed
      obtain ⟨_, _, given⟩ := gives.exists_of_mem_right member
      rw [Construct.walk_eq] at inside
      rcases List.mem_cons.mp inside with rfl | below
      · obtain rfl := Construct.Kind.component.inj (given.kind.symm.trans kind)
        exact List.mem_map_of_mem member
      · obtain ⟨child, under, walked⟩ := List.mem_flatMap.mp below
        exact absurd kind (given.built.only_root child under construct walked _)
  | loop | conditional | alternative | slot =>
      simp [kind, Construct.Kind.callee?] at called

theorem mem_names_of_targets (parsed : parse files = .ok (catalog, events))
    {component : Component} (member : component ∈ catalog.components)
    {target : String} (called : target ∈ component.root.targets) :
    target ∈ catalog.names := by
  obtain ⟨construct, walked, found⟩ := List.mem_filterMap.mp called
  obtain ⟨arguments, kind⟩ := Construct.Kind.target?_eq_some.mp found
  exact mem_names_of_callee? parsed member walked (by rw [kind]; rfl)

theorem ofComponent_congr (parsed : parse files = .ok (catalog, events))
    (same : ∀ name ∈ catalog.names, signatures.get? name = others.get? name)
    {component : Component} (member : component ∈ catalog.components) :
    GeneratedFunction.ofComponent signatures component =
      GeneratedFunction.ofComponent others component := by
  unfold GeneratedFunction.ofComponent
  rw [Declaration.ofConstruct_congr component.root
      fun construct inside name called =>
        same name (mem_names_of_callee? parsed member inside called),
        same component.name (List.mem_map_of_mem member)]

end Catalog

end Code

end Stencil
