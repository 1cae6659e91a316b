import Stencil.Catalog
import Stencil.Proofs.Building

namespace Stencil.Catalog

/-! Every component of a catalog is built from an element of one of its files,
and each element that declares a component gives one, under a name of its
own. -/

theorem Definition.component_ok {known : List String} {definition : Definition}
    {components : List Component} {events : List Event}
    (built : definition.component known = .ok (components, events)) :
    ∃ root told, Construct.build definition.source definition.element known =
      .ok (root, told) ∧
      ∀ component ∈ components,
        component.root = root ∧ component.file = definition.file ∧
        root.kind = .component component.name := by
  unfold Definition.component at built
  split at built
  · cases built
  · rename_i root told ran
    refine ⟨root, told, ran, ?_⟩
    split at built
    · rename_i name kind
      obtain ⟨rfl, _⟩ := Prod.mk.inj (Except.ok.inj built)
      intro component member
      rw [List.mem_singleton.mp member]
      exact ⟨rfl, rfl, kind⟩
    · obtain ⟨rfl, _⟩ := Prod.mk.inj (Except.ok.inj built)
      intro component member
      cases member

theorem Definition.all_ok {file : TemplateFile} {definitions : List Definition}
    (found : Definition.all file = .ok definitions) :
    ∃ document, Document.parse (Source.ofText file.text) = .ok document ∧
      ∀ definition ∈ definitions, definition.file = file.label ∧
        definition.source = Source.ofText file.text ∧
        definition.element ∈ document.descendants.map Prod.snd := by
  unfold Definition.all at found
  dsimp only at found
  split at found
  · cases found
  · rename_i document parsed
    cases found
    refine ⟨document, parsed, ?_⟩
    intro definition member
    obtain ⟨element, selected, rfl⟩ := List.mem_map.mp member
    exact ⟨rfl, rfl, List.mem_of_mem_filter selected⟩

theorem parse_steps {files : List TemplateFile} {catalog : Catalog}
    {events : List Event} (parsed : parse files = .ok (catalog, events)) :
    ∃ found declared built, files.mapM Definition.all = .ok found ∧
      found.flatten.foldlM Definition.declare [] = .ok declared ∧
      found.flatten.mapM (Definition.component (declared.map Definition.name)) =
        .ok built ∧
      catalog.components = built.flatMap Prod.fst := by
  unfold parse at parsed
  obtain ⟨found, all, parsed⟩ := Except.bind_eq_ok.mp parsed
  obtain ⟨declared, accepted, parsed⟩ := Except.bind_eq_ok.mp parsed
  obtain ⟨built, builds, parsed⟩ := Except.bind_eq_ok.mp parsed
  rw [Except.pure_eq_ok] at parsed
  obtain ⟨rfl, _⟩ := Prod.mk.inj parsed
  exact ⟨found, declared, built, all, accepted, builds, rfl⟩

/-- A component that was read has a file, an element of that file's document,
and the construct tree of that element. -/
theorem parse_ok {files : List TemplateFile} {catalog : Catalog}
    {events : List Event} (parsed : parse files = .ok (catalog, events))
    {component : Component} (member : component ∈ catalog.components) :
    ∃ file ∈ files, ∃ document element known told,
      Document.parse (Source.ofText file.text) = .ok document ∧
      element ∈ document.descendants.map Prod.snd ∧
      Construct.build (Source.ofText file.text) element known =
        .ok (component.root, told) ∧
      component.file = file.label ∧
      component.root.kind = .component component.name := by
  obtain ⟨found, declared, built, all, _, builds, components⟩ :=
    parse_steps parsed
  rw [components] at member
  obtain ⟨⟨_, told⟩, result, inside⟩ := List.mem_flatMap.mp member
  obtain ⟨definition, listed, made⟩ :=
    (Except.forall₂_of_mapM builds).exists_of_mem_right result
  obtain ⟨definitions, some, inFile⟩ := List.mem_flatten.mp listed
  obtain ⟨file, inFiles, defines⟩ :=
    (Except.forall₂_of_mapM all).exists_of_mem_right some
  obtain ⟨document, read, defined⟩ := Definition.all_ok defines
  obtain ⟨label, source, element⟩ := defined definition inFile
  obtain ⟨root, said, ran, components_eq⟩ := Definition.component_ok made
  obtain ⟨rfl, file_eq, kind⟩ := components_eq component inside
  rw [source] at ran
  exact ⟨file, inFiles, document, definition.element, _, said, read, element,
    ran,
    by rw [file_eq, label], kind⟩

namespace Definition

variable {known : List String} {definition : Definition}
  {components : List Component} {events : List Event}

theorem component_eq
    (declares : (definition.element.attribute? Directive.component.name).isSome)
    (built : definition.component known = .ok (components, events)) :
    ∃ root, components = [⟨definition.name, definition.file, root⟩] := by
  unfold component at built
  split at built
  · cases built
  · rename_i root told ran
    obtain ⟨_, classified⟩ := (Construct.build_ok ran).classified
    obtain ⟨name, kind, declared⟩ := classified.component_of_attribute declares
    have named : definition.name = name := by
      rw [Definition.name, declared, Option.getD_some]
    simp only [kind] at built
    obtain ⟨rfl, _⟩ := Prod.mk.inj (Except.ok.inj built)
    exact ⟨root, by rw [named]⟩

theorem names_of_components {definitions : List Definition}
    {built : List (List Component × List Event)}
    (declare : ∀ definition ∈ definitions,
      (definition.element.attribute? Directive.component.name).isSome)
    (builds :
      List.Forall₂ (fun definition result => component known definition =
        .ok result)
      definitions built) :
    (built.flatMap Prod.fst).map Component.name = definitions.map name := by
  induction builds with
  | nil => rfl
  | @cons definition result _ _ here _ induction =>
      obtain ⟨root, components_eq⟩ :=
        component_eq (declare definition (List.mem_cons_self ..)) here
      rw [List.flatMap_cons, components_eq, List.map_append,
        induction fun other member =>
          declare other (List.mem_cons_of_mem _ member)]
      rfl

theorem all_declare {file : TemplateFile} {definitions : List Definition}
    (found : all file = .ok definitions) : ∀ definition ∈ definitions,
      (definition.element.attribute? Directive.component.name).isSome := by
  unfold all at found
  dsimp only at found
  split at found
  · cases found
  · cases found
    intro definition member
    obtain ⟨element, selected, rfl⟩ := List.mem_map.mp member
    exact (List.mem_filter.mp selected).2

theorem nodup_of_declare {earlier definitions declared : List Definition}
    (apart : (earlier.map name).Nodup)
    (accepted : definitions.foldlM declare earlier = .ok declared) :
    ((earlier ++ definitions).map name).Nodup := by
  induction definitions generalizing earlier with
  | nil => rwa [List.append_nil]
  | cons definition rest induction =>
      rw [List.foldlM_cons] at accepted
      obtain ⟨next, step, accepted⟩ := Except.bind_eq_ok.mp accepted
      unfold declare at step
      split at step
      · rename_i new
        obtain rfl := Except.ok.inj step
        rw [← List.singleton_append, ← List.append_assoc]
        refine induction ?_ accepted
        have fresh : definition.name ∉ earlier.map name := by simpa using new
        rw [List.map_append]
        exact List.nodup_append.mpr
          ⟨apart, List.pairwise_singleton _ _, by simpa using fresh⟩
      · cases step

end Definition

theorem Definition.declared_eq {earlier definitions declared : List Definition}
    (accepted : definitions.foldlM declare earlier = .ok declared) :
    declared = earlier ++ definitions := by
  induction definitions generalizing earlier with
  | nil =>
      obtain rfl := Except.pure_eq_ok.mp accepted
      rw [List.append_nil]
  | cons definition rest induction =>
      rw [List.foldlM_cons] at accepted
      obtain ⟨next, step, accepted⟩ := Except.bind_eq_ok.mp accepted
      unfold declare at step
      split at step
      · obtain rfl := Except.ok.inj step
        rw [induction accepted, List.append_assoc, List.singleton_append]
      · cases step

theorem Definition.found_declare {files : List TemplateFile}
    {found : List (List Definition)}
    (all : files.mapM Definition.all = .ok found) :
    ∀ definition ∈ found.flatten,
      (definition.element.attribute? Directive.component.name).isSome := by
  intro definition listed
  obtain ⟨definitions, some, inFile⟩ := List.mem_flatten.mp listed
  obtain ⟨file, _, defines⟩ := (Except.forall₂_of_mapM all).exists_of_mem_right
    some
  exact Definition.all_declare defines definition inFile

theorem nodup_names {files : List TemplateFile} {catalog : Catalog}
    {events : List Event} (parsed : parse files = .ok (catalog, events)) :
    catalog.names.Nodup := by
  obtain ⟨found, declared, built, all, accepted, builds, components⟩ :=
    parse_steps parsed
  have start : (([] : List Definition).map Definition.name).Nodup :=
    List.nodup_nil
  rw [names, components,
    Definition.names_of_components (Definition.found_declare all)
    (Except.forall₂_of_mapM builds)]
  exact Definition.nodup_of_declare start accepted

end Stencil.Catalog
