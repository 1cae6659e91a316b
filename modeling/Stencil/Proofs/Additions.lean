import Stencil.Proofs.Dependence

namespace Stencil

open Text

/-! Files that are added behind others leave the functions of those as they are,
where nothing in those refers to what the new ones declare. -/

theorem Scope.target?_append {source : Source} {known added : List String}
    {component : Option String} {name : String}
    (apart : ∀ other ∈ added, ¬ sameIgnoringCase other name) :
    target? ⟨source, known ++ added, component⟩ name =
      target? ⟨source, known, component⟩ name := by
  unfold target?
  dsimp only
  rw [List.filter_append, List.find?_append, Option.or_eq_left_of_none]
  rw [List.find?_eq_none]
  intro other kept
  exact apart other (List.mem_of_mem_filter kept)

namespace Signatures

variable {own added : List Component} {name : String}

theorem find?_append_left (outside : name ∉ added.map Component.name) :
    (own ++ added).find? (fun candidate => candidate.name == name) =
      own.find? fun candidate => candidate.name == name := by
  rw [List.find?_append, Option.or_eq_left_of_none]
  rw [List.find?_eq_none]
  intro component member named
  apply outside
  rw [← beq_iff_eq.mp named]
  exact List.mem_map_of_mem member

theorem others_append (outside : name ∉ added.map Component.name) :
    others (own ++ added) name = others own name ++ added := by
  have kept : others added name = added := by
    apply List.filter_eq_self.mpr
    intro component member
    rw [bne_iff_ne]
    rintro rfl
    exact outside (List.mem_map_of_mem member)
  unfold others at kept ⊢
  rw [List.filter_append, kept]

theorem extend_append {signatures : Signatures}
    (outside : name ∉ added.map Component.name)
    (closed : ∀ component ∈ own, ∀ target ∈ component.root.targets,
      target ∉ added.map Component.name) :
    extend (own ++ added) name signatures = extend own name signatures := by
  induction own, name, signatures using extend.induct with
  | case1 own name signatures known =>
      rw [extend, extend, if_pos known, if_pos known]
  | case2 own name signatures new missing =>
      have new : name ∉ signatures.names :=
        get?_eq_none_iff.mp (by simpa using new)
      rw [extend_new new, extend_new new, find?_append_left outside, missing]
  | case3 own name signatures new component found induction =>
      have new : name ∉ signatures.names :=
        get?_eq_none_iff.mp (by simpa using new)
      rw [extend_new new, extend_new new, find?_append_left outside, found,
        others_append outside]
      dsimp only
      congr 1
      apply Except.foldlM_congr
      intro target called state
      apply induction state target
      · exact closed component (List.mem_of_find?_eq_some found) target called
      · intro other kept
        exact closed other (List.mem_of_mem_filter kept)

theorem foldlM_grows
    {step : Signatures → String → Except GenerationError Signatures}
    {names : List String} {before after : Signatures}
    (each : ∀ name ∈ names, ∀ before after, step before name = .ok after →
      before.entries <+: after.entries)
    (ran : names.foldlM step before = .ok after) :
    before.entries <+: after.entries := by
  induction names generalizing before with
  | nil =>
      obtain rfl := Except.pure_eq_ok.mp ran
      exact List.prefix_rfl
  | cons name rest induction =>
      rw [List.foldlM_cons] at ran
      obtain ⟨middle, step, ran⟩ := Except.bind_eq_ok.mp ran
      refine (each name (List.mem_cons_self ..) before middle step).trans ?_
      exact induction (fun other member => each other
        (List.mem_cons_of_mem _ member)) ran

theorem extend_grows {available : List Component} {before after : Signatures}
    (ran : extend available name before = .ok after) :
    before.entries <+: after.entries := by
  induction available, name, before using extend.induct generalizing after with
  | case1 available name before known =>
      rw [extend, if_pos known] at ran
      obtain rfl := Except.ok.inj ran
      exact List.prefix_rfl
  | case2 available name before new missing =>
      have new : name ∉ before.names := get?_eq_none_iff.mp (by simpa using new)
      rw [extend_new new, missing] at ran
      obtain rfl := Except.ok.inj ran
      exact List.prefix_rfl
  | case3 available name before new component found induction =>
      have new : name ∉ before.names := get?_eq_none_iff.mp (by simpa using new)
      rw [extend_new new, found] at ran
      obtain ⟨callees, called, completed⟩ := Except.bind_eq_ok.mp ran
      obtain ⟨parameters, _, rfl⟩ := complete_ok completed
      refine (foldlM_grows (fun target _ before after => ?_) called).trans
        (List.prefix_append _ _)
      exact induction before target

/-- The signatures of a catalog are derived before those of what is added to it,
and stay. -/
theorem ofCatalog_append {signatures : Signatures}
    (apart : ((own ++ added).map Component.name).Nodup)
    (closed : ∀ component ∈ own, ∀ target ∈ component.root.targets,
      target ∈ own.map Component.name)
    (derived : ofCatalog ⟨own ++ added⟩ = .ok signatures) :
    ∃ first, ofCatalog ⟨own⟩ = .ok first ∧
      ∀ name ∈ own.map Component.name,
        signatures.get? name = first.get? name := by
  rw [List.map_append, List.nodup_append] at apart
  have outside : ∀ name ∈ own.map Component.name,
      name ∉ added.map Component.name :=
    fun name inside other => apart.2.2 name inside name other rfl
  have named : Catalog.names ⟨own ++ added⟩ =
      own.map Component.name ++ added.map Component.name :=
    List.map_append
  unfold ofCatalog at derived
  rw [named, List.foldlM_append] at derived
  obtain ⟨first, ran, rest⟩ := Except.bind_eq_ok.mp derived
  have same : ofCatalog ⟨own⟩ = .ok first := by
    rw [← ran]
    apply Except.foldlM_congr
    intro name listed state
    refine (extend_append (outside name listed) ?_).symm
    exact fun component member target called =>
      outside _ (closed component member target called)
  refine ⟨first, same, ?_⟩
  intro name inside
  obtain ⟨more, grown⟩ := foldlM_grows (fun name _ before after => extend_grows)
    rest
  exact get?_of_append grown.symm ((derivation_of_ofCatalog same).2 name inside)

end Signatures

namespace Catalog

variable {files added : List TemplateFile} {catalog own : Catalog}
  {events told : List Event}

theorem parse_append
    (apart : ∀ file ∈ files, ∀ other ∈ added, ∀ name ∈ other.declared,
      ∀ mention ∈ file.mentioned, ¬ sameIgnoringCase name mention)
    (parsed : parse (files ++ added) = .ok (catalog, events)) :
    ∃ own told more, parse files = .ok (own, told) ∧
      catalog.components = own.components ++ more := by
  obtain ⟨found, built, all, distinct, builds, components, _⟩ :=
    parse_eq_ok.mp parsed
  rw [List.mapM_append] at all
  obtain ⟨first, here, all⟩ := Except.bind_eq_ok.mp all
  obtain ⟨second, there, all⟩ := Except.bind_eq_ok.mp all
  obtain rfl := Except.pure_eq_ok.mp all
  rw [List.flatten_append, List.map_append] at distinct builds
  rw [List.mapM_append] at builds
  obtain ⟨trees, firstBuilds, builds⟩ := Except.bind_eq_ok.mp builds
  obtain ⟨others, _, builds⟩ := Except.bind_eq_ok.mp builds
  obtain rfl := Except.pure_eq_ok.mp builds
  refine ⟨⟨trees.flatMap Prod.fst⟩, trees.flatMap Prod.snd,
    others.flatMap Prod.fst, ?_, ?_⟩
  · refine parse_eq_ok.mpr
      ⟨first, trees, here, (List.nodup_append.mp distinct).1, ?_, rfl, rfl⟩
    rw [← firstBuilds]
    apply Except.mapM_congr
    intro definition listed
    obtain ⟨file, inFiles, inside⟩ :=
      Definition.mem_elements_of_found here listed
    apply Definition.component_congr
    apply Construct.build_congr
    intro lineage member mention mentioned
    refine (Scope.target?_append ?_).symm
    intro name declared
    rw [Definition.names_of_found there] at declared
    obtain ⟨other, inAdded, declared⟩ := List.mem_flatMap.mp declared
    refine apart file inFiles other inAdded name declared mention ?_
    exact List.mem_flatMap.mpr
      ⟨_, inside _ (List.mem_map_of_mem member), mentioned⟩
  · rw [components, List.flatMap_append]

/-- The functions of some files come first, and unchanged, among those of the
files with others behind them. -/
theorem additions_keep_functions
    (apart : ∀ file ∈ files, ∀ other ∈ added, ∀ name ∈ other.declared,
      ∀ mention ∈ file.mentioned, ¬ sameIgnoringCase name mention)
    (parsed : parse (files ++ added) = .ok (catalog, events))
    {functions : List GeneratedFunction}
    (compiled : catalog.functions = .ok (functions, told)) :
    ∃ own said first heard, parse files = .ok (own, said) ∧
      own.functions = .ok (first, heard) ∧
      first.map GeneratedFunction.name = own.names ∧
      ∃ more, functions = first ++ more := by
  obtain ⟨own, said, more, alone, components⟩ := parse_append apart parsed
  have distinct : ((own.components ++ more).map Component.name).Nodup := by
    rw [← components]
    exact nodup_names parsed
  obtain ⟨_⟩ := catalog
  obtain rfl := components
  unfold Catalog.functions at compiled
  obtain ⟨signatures, derived, compiled⟩ := Except.bind_eq_ok.mp compiled
  obtain ⟨generated, mapped, compiled⟩ := Except.bind_eq_ok.mp compiled
  obtain ⟨rfl, _⟩ := Prod.mk.inj (Except.pure_eq_ok.mp compiled)
  obtain ⟨first, ownDerived, same⟩ := Signatures.ofCatalog_append distinct
    (fun component member target called => mem_names_of_targets alone member
      called) derived
  rw [List.mapM_append] at mapped
  obtain ⟨ownGenerated, ownMapped, mapped⟩ := Except.bind_eq_ok.mp mapped
  obtain ⟨others, _, mapped⟩ := Except.bind_eq_ok.mp mapped
  obtain rfl := Except.pure_eq_ok.mp mapped
  have ownCompiled : own.functions = .ok (ownGenerated.map Prod.fst,
      first.events ++ ownGenerated.flatMap Prod.snd) := by
    unfold Catalog.functions
    refine Except.bind_eq_ok.mpr ⟨first, ownDerived, ?_⟩
    refine Except.bind_eq_ok.mpr ⟨ownGenerated, ?_, rfl⟩
    rw [← ownMapped]
    apply Except.mapM_congr
    exact fun component member => (ofComponent_congr alone same member).symm
  obtain ⟨_, _, made⟩ := functions_ok ownCompiled
  exact ⟨own, said, _, _, alone, ownCompiled, names_of_generated made,
    others.map Prod.fst,
    List.map_append⟩

/-- The first two files call each other, and the third calls into their
cycle. -/
theorem additions_keep_functions_cycle :
    let files : List TemplateFile :=
      [⟨"ping.html",
          "<i _component=\"Ping\"><b _placeholder=\" pong \" " ++
          "n=\"\x7b\x7b m \x7d\x7d\"/></i>"⟩,
        ⟨"pong.html",
          "<i _component=\"Pong\"><b _if=\"n\"/>" ++
          "<ping m=\"\x7b\x7b n \x7d\x7d\"/></i>"⟩]
    let added : List TemplateFile :=
      [⟨"page.html",
        "<p _component=\"Page\"><ping m=\"\x7b\x7b on \x7d\x7d\"/></p>"⟩]
    ∃ catalog events functions told own said first heard more,
      parse (files ++ added) = .ok (catalog, events) ∧
      catalog.functions = .ok (functions, told) ∧
      parse files = .ok (own, said) ∧
      own.functions = .ok (first, heard) ∧ functions = first ++ more ∧
      (functions.map fun function => (function.name, function.parameters)) =
        [("Ping", [⟨"m", "bool"⟩]), ("Pong", [⟨"n", "bool"⟩]),
          ("Page", [⟨"on", "bool"⟩])] ∧
      own.names = ["Ping", "Pong"] := by
  intro files added
  have apart : (files.all fun file => added.all fun other => other.declared.all
        fun name =>
          file.mentioned.all fun mention => !sameIgnoringCase name mention) =
            true := by decide +kernel
  simp only [List.all_eq_true, Bool.not_eq_true'] at apart
  have shape : (parse (files ++ added)).map (fun result =>
      (result.1.functions.map fun compiled =>
        compiled.1.map fun function => (function.name, function.parameters),
        (parse files).map fun result => result.1.names)) =
      .ok (.ok [("Ping", [⟨"m", "bool"⟩]), ("Pong", [⟨"n", "bool"⟩]),
        ("Page", [⟨"on", "bool"⟩])],
        .ok ["Ping", "Pong"]) := by decide +kernel
  obtain ⟨⟨catalog, events⟩, parsed, shape⟩ := Except.map_eq_ok.mp shape
  obtain ⟨compiled, names⟩ := Prod.mk.inj shape
  obtain ⟨⟨functions, told⟩, compiled, listed⟩ := Except.map_eq_ok.mp compiled
  obtain ⟨⟨other, _⟩, alone, names⟩ := Except.map_eq_ok.mp names
  obtain ⟨own, said, first, heard, ownParsed, ownCompiled, _, more, split⟩ :=
    additions_keep_functions
        (fun file inFiles other inAdded name declared mention mentioned =>
          by
            simp [apart file inFiles other inAdded name declared mention
              mentioned]) parsed compiled
  obtain ⟨rfl, _⟩ := Prod.mk.inj (Except.ok.inj (alone.symm.trans ownParsed))
  exact ⟨catalog, events, functions, told, other, said, first, heard, more,
    parsed, compiled,
    ownParsed, ownCompiled, split, listed, names⟩

end Catalog

end Stencil
