import Stencil.Proofs.Dependence

namespace Stencil

open Text

/-! The order of the files matters to the order of the functions only, where
names differ in more than case and no chain of calls comes back to its start. -/

theorem Text.sameIgnoringCase_iff {left right : String} :
    sameIgnoringCase left right ↔
    left.toList.map Char.toLower = right.toList.map Char.toLower := by
  rw [sameIgnoringCase, beq_iff_eq]

theorem Scope.target?_of_perm {source : Source} {known others : List String}
    {component : Option String} (perm : known.Perm others)
    (distinct : known.Pairwise fun first second =>
      ¬ sameIgnoringCase first second)
    (name : String) :
    target? ⟨source, known, component⟩ name =
      target? ⟨source, others, component⟩ name := by
  apply (perm.filter _).find?_eq
  intro first firstKept second secondKept firstNamed secondNamed
  have same := (sameIgnoringCase_iff.mp firstNamed).trans
    (sameIgnoringCase_iff.mp secondNamed).symm
  rcases distinct.eq_or_rel (List.mem_of_mem_filter firstKept)
    (List.mem_of_mem_filter secondKept)
    with equal | apart | apart
  · exact equal
  · exact absurd (sameIgnoringCase_iff.mpr same) apart
  · exact absurd (sameIgnoringCase_iff.mpr same.symm) apart

namespace Catalog

/-- No chain of calls comes back to its start. -/
def Acyclic (catalog : Catalog) : Prop :=
  ∀ name, ¬ Relation.TransGen catalog.Calls name name

theorem Acyclic.of_subset {catalog other : Catalog} (acyclic : catalog.Acyclic)
    (subset : other.components ⊆ catalog.components) : other.Acyclic := by
  have calls : other.Calls ≤ catalog.Calls := by
    rintro caller callee ⟨component, member, called⟩
    exact ⟨component, subset member, called⟩
  exact fun name leads =>
    acyclic name (Relation.TransGen.mono calls name name leads)

theorem acyclic_of_rank {catalog : Catalog} (rank : String → Nat)
    (rises : ∀ component ∈ catalog.components,
      ∀ target ∈ component.root.targets,
      rank component.name < rank target) : catalog.Acyclic := by
  have rise : ∀ caller callee, Relation.TransGen catalog.Calls caller callee →
      rank caller < rank callee := by
    intro caller callee leads
    induction leads with
    | single call =>
        obtain ⟨component, member, rfl, called⟩ := call
        exact rises component member _ (List.mem_filterMap.mpr called)
    | tail _ call induction =>
        obtain ⟨component, member, rfl, called⟩ := call
        exact Nat.lt_trans induction (rises component
          member _ (List.mem_filterMap.mpr called))
  exact fun name leads => Nat.lt_irrefl _ (rise name name leads)

end Catalog

namespace Signatures

variable {catalog : Catalog} {signatures whole : Signatures}

/-- Each component has the parameters that its tree gives it with all these
signatures known. -/
def Solves (signatures : Signatures) (catalog : Catalog) : Prop :=
  ∀ component ∈ catalog.components, ∃ parameters,
    signatures.get? component.name = some parameters ∧
      Parameter.ofConstruct signatures component.root = .ok parameters

def Within (signatures whole : Signatures) : Prop :=
  ∀ name ∈ signatures.names, signatures.get? name = whole.get? name

/-- Without cycles, what a component calls is known when its signature is
derived. -/
theorem solves_of_ofCatalog (acyclic : catalog.Acyclic)
    (apart : catalog.names.Nodup)
    (closed : ∀ component ∈ catalog.components,
      ∀ target ∈ component.root.targets,
      target ∈ catalog.names) (derived :
      ofCatalog catalog = .ok signatures) : signatures.Solves catalog := by
  intro component member
  obtain ⟨derivation, complete⟩ := derivation_of_ofCatalog derived
  obtain ⟨entry, listed, named⟩ :=
    List.mem_map.mp (complete _ (List.mem_map_of_mem member))
  obtain ⟨callees, more, split, other, otherMember, otherNamed, own, called⟩ :=
    derivation.exists_callees listed
  obtain rfl := Catalog.eq_of_name_eq apart otherMember member
    (otherNamed.trans named)
  refine ⟨entry.parameters, ?_, ?_⟩
  · rw [← named]
    exact get?_of_mem derivation.nodup_names listed
  · rw [← own]
    apply Parameter.ofConstruct_congr
    intro target listed
    apply get?_of_append split
    refine (called target listed
      (closed other member target listed)).resolve_right fun leads => ?_
    exact acyclic _ (.head (Catalog.calls_of_target member listed) leads)

theorem Within.insert {component : Component} {parameters : List Parameter}
    (within : Within signatures whole)
    (fresh : component.name ∉ signatures.names)
    (known : whole.get? component.name = some parameters) :
    Within (signatures.insert ⟨component.name, parameters⟩) whole := by
  intro name member
  rw [names_insert] at member
  rcases List.mem_append.mp member with earlier | last
  · rw [← within name earlier]
    exact get?_of_append rfl earlier
  · obtain rfl := List.mem_singleton.mp last
    have missing : signatures.get? component.name = none :=
      get?_eq_none_iff.mpr fresh
    rw [known]
    unfold get? Signatures.insert at *
    rw [Option.map_eq_none_iff] at missing
    rw [List.find?_append, missing]
    simp

theorem within_of_foldlM {available : List Component} {names : List String}
    {before : Signatures}
    (each : ∀ name ∈ names, ∀ before, Within before whole →
      ∃ after, extend available name before = .ok after ∧ Within after whole)
    (within : Within before whole) :
    ∃ after, names.foldlM (fun derived name => extend available name derived)
      before = .ok after ∧
      Within after whole := by
  induction names generalizing before with
  | nil => exact ⟨before, rfl, within⟩
  | cons name rest induction =>
      obtain ⟨middle, step, inside⟩ :=
        each name (List.mem_cons_self ..) before within
      obtain ⟨after, ran, inside⟩ :=
        induction (fun other member => each other
          (List.mem_cons_of_mem _ member)) inside
      refine ⟨after, ?_, inside⟩
      rw [List.foldlM_cons, step]
      exact ran

/-- The search can only come to the signatures that solve the catalog. -/
theorem extend_of_solves (acyclic : catalog.Acyclic)
    (closed : ∀ component ∈ catalog.components,
      ∀ target ∈ component.root.targets,
      target ∈ catalog.names) (solves : whole.Solves catalog)
    {available : List Component} {name : String} {before : Signatures}
    (inside : available ⊆ catalog.components)
    (path : ∀ other ∈ catalog.names, other ∉ available.map Component.name →
      Relation.TransGen catalog.Calls other name) (within :
      Within before whole) :
    ∃ after, extend available name before = .ok after ∧ Within after whole := by
  induction available, name, before using extend.induct with
  | case1 available name before known =>
      refine ⟨before, ?_, within⟩
      rw [extend, if_pos known]
  | case2 available name before new missing =>
      have new : name ∉ before.names := get?_eq_none_iff.mp (by simpa using new)
      refine ⟨before, ?_, within⟩
      rw [extend_new new, missing]
  | case3 available name before new component found induction =>
      have new : name ∉ before.names := get?_eq_none_iff.mp (by simpa using new)
      have listed := List.mem_of_find?_eq_some found
      have member := inside listed
      obtain rfl : component.name = name := by simpa using List.find?_some found
      have fits : others available component.name ⊆ catalog.components :=
        fun other kept => inside (List.mem_of_mem_filter kept)
      have onward : ∀ target ∈ component.root.targets, ∀ other ∈ catalog.names,
          other ∉ (others available component.name).map Component.name →
            Relation.TransGen catalog.Calls other target :=
        fun target called =>
          path_to_target path (Catalog.calls_of_target member called)
      obtain ⟨callees, called, calleesWithin⟩ := within_of_foldlM
        (fun target called before => induction before target fits
          (onward target called)) within
      obtain ⟨extension, reached⟩ := extends_of_foldlM catalog
        (fun target called before after => extends_of_extend fits
          (onward target called)) called
      -- A callee that is not available would lie on the path, and so lead back
      -- to itself.
      have complete : ∀ target ∈ component.root.targets,
          target ∈ callees.names := by
        intro target called
        apply reached target called
        by_contra unavailable
        exact acyclic target
          (onward target called target (closed _ member target called)
          unavailable)
      obtain ⟨parameters, known, own⟩ := solves component member
      have derived : Parameter.ofConstruct callees component.root =
          .ok parameters := by
        rw [← own]
        apply Parameter.ofConstruct_congr
        exact fun target called => calleesWithin target (complete target called)
      refine ⟨callees.insert ⟨component.name, parameters⟩, ?_,
        calleesWithin.insert (extension.fresh new) known⟩
      rw [extend_new new, found]
      refine Except.bind_eq_ok.mpr ⟨callees, called, ?_⟩
      rw [Signatures.complete, derived]

theorem ofCatalog_of_solves (acyclic : catalog.Acyclic)
    (closed : ∀ component ∈ catalog.components,
      ∀ target ∈ component.root.targets,
      target ∈ catalog.names) (solves : whole.Solves catalog) :
    ∃ signatures, ofCatalog catalog = .ok signatures ∧
      ∀ name ∈ catalog.names, signatures.get? name = whole.get? name := by
  have start : Within .empty whole := nofun
  obtain ⟨signatures, derived, within⟩ := within_of_foldlM (by
    intro name _ before
    apply extend_of_solves acyclic closed solves (List.Subset.refl _)
    exact fun other listed unavailable => absurd listed unavailable) start
  exact ⟨signatures, derived,
    fun name listed =>
      within name ((derivation_of_ofCatalog derived).2 name listed)⟩

end Signatures

namespace Catalog

variable {files others : List TemplateFile} {catalog other : Catalog}
  {events told : List Event}

def Generates (files : List TemplateFile) (functions : List GeneratedFunction) :
    Prop :=
  ∃ catalog events told, parse files = .ok (catalog, events) ∧
    catalog.functions = .ok (functions, told)

theorem Generates.unique {functions same : List GeneratedFunction}
    (first : Generates files functions) (second : Generates files same) :
    functions = same := by
  obtain ⟨catalog, events, told, parsed, compiled⟩ := first
  obtain ⟨other, _, _, otherParsed, otherCompiled⟩ := second
  obtain ⟨rfl, _⟩ := Prod.mk.inj (Except.ok.inj (parsed.symm.trans otherParsed))
  exact (Prod.mk.inj (Except.ok.inj (compiled.symm.trans otherCompiled))).1

theorem parse_of_perm (perm : files.Perm others)
    (distinct : (files.flatMap TemplateFile.declared).Pairwise
      fun first second => ¬ sameIgnoringCase first second)
    (parsed : parse files = .ok (catalog, events)) :
    ∃ of : TemplateFile → List Component,
      catalog.components = files.flatMap of ∧
      (∀ file ∈ files, (of file).map Component.name = file.declared) ∧
      ∃ other told, parse others = .ok (other, told) ∧
        other.components = others.flatMap of := by
  obtain ⟨found, built, all, apart, builds, components, _⟩ :=
    parse_eq_ok.mp parsed
  rw [Definition.names_of_found all] at apart builds
  obtain ⟨definitions, rfl, defined⟩ := Except.exists_value_of_mapM all
  rw [← List.flatMap_def] at builds
  obtain ⟨trees, rfl, made⟩ := Except.exists_value_of_mapM builds
  have otherAll : others.mapM Definition.all = .ok (others.map definitions) :=
    Except.mapM_eq_map fun file member => defined file (perm.mem_iff.mpr member)
  have names : (files.flatMap TemplateFile.declared).Perm
      (others.flatMap TemplateFile.declared) := perm.flatMap_right _
  have otherMade : ∀ definition ∈ others.flatMap definitions,
      Definition.component (others.flatMap TemplateFile.declared) definition =
        .ok (trees definition) := by
    intro definition member
    rw [← made definition ((perm.flatMap_right definitions).mem_iff.mpr member)]
    apply Definition.component_congr
    apply Construct.build_congr
    exact fun _ _ name _ => (Scope.target?_of_perm names distinct name).symm
  refine ⟨fun file => (definitions file).flatMap fun definition =>
    (trees definition).1, ?_, ?_,
    ⟨((others.flatMap definitions).map trees).flatMap Prod.fst⟩,
    ((others.flatMap definitions).map trees).flatMap Prod.snd, ?_, ?_⟩
  · rw [components, List.flatMap_map, List.flatMap_assoc]
  · intro file member
    have found := defined file member
    have each :=
        Except.forall₂_of_mapM (Except.mapM_eq_map fun definition listed =>
          made definition (List.mem_flatMap.mpr ⟨file, member, listed⟩))
    rw [← (Definition.elements_of_all found).1,
      ← Definition.names_of_components (Definition.all_declare found) each,
      List.flatMap_map]
  · refine parse_eq_ok.mpr ⟨_, _, otherAll, ?_, ?_, rfl, rfl⟩
    · rw [Definition.names_of_found otherAll]
      exact names.nodup_iff.mp apart
    · rw [Definition.names_of_found otherAll, ← List.flatMap_def]
      exact Except.mapM_eq_map otherMade
  · rw [List.flatMap_map, List.flatMap_assoc]

theorem functions_of_mem_iff (parsed : parse files = .ok (catalog, events))
    (otherParsed : parse others = .ok (other, told))
    (same : ∀ component,
      component ∈ catalog.components ↔ component ∈ other.components)
    (acyclic : catalog.Acyclic) {functions : List GeneratedFunction}
    {said : List Event} (compiled : catalog.functions = .ok (functions, said)) :
    ∃ of : Component → GeneratedFunction,
      functions = catalog.components.map of ∧
      (∀ component ∈ catalog.components, (of component).name = component.name) ∧
      ∃ heard, other.functions = .ok (other.components.map of, heard) := by
  unfold Catalog.functions at compiled
  obtain ⟨signatures, derived, compiled⟩ := Except.bind_eq_ok.mp compiled
  obtain ⟨generated, mapped, compiled⟩ := Except.bind_eq_ok.mp compiled
  obtain ⟨rfl, _⟩ := Prod.mk.inj (Except.pure_eq_ok.mp compiled)
  have : Inhabited (GeneratedFunction × List Event) := ⟨⟨"", [], ""⟩, []⟩
  obtain ⟨results, rfl, made⟩ := Except.exists_value_of_mapM mapped
  have solves := Signatures.solves_of_ofCatalog acyclic (nodup_names parsed)
    (fun _ member _ called => mem_names_of_targets parsed member called) derived
  have otherSolves : signatures.Solves other :=
    fun component member => solves component ((same component).mpr member)
  have otherAcyclic : other.Acyclic :=
    acyclic.of_subset fun component member => (same component).mpr member
  obtain ⟨otherSignatures, otherDerived, agree⟩ :=
    Signatures.ofCatalog_of_solves otherAcyclic
    (fun _ member _ called => mem_names_of_targets otherParsed member called)
      otherSolves
  have otherMade : ∀ component ∈ other.components,
      GeneratedFunction.ofComponent otherSignatures component =
        .ok (results component) := by
    intro component member
    rw [ofComponent_congr otherParsed agree member]
    exact made component ((same component).mpr member)
  refine ⟨fun component => (results component).1, List.map_map, ?_,
    otherSignatures.events ++ (other.components.map results).flatMap Prod.snd,
    ?_⟩
  · intro component member
    obtain ⟨_, _, function⟩ := GeneratedFunction.generated_of_ofComponent
      (made component member)
    exact congrArg GeneratedFunction.name function
  · unfold Catalog.functions
    refine Except.bind_eq_ok.mpr ⟨otherSignatures, otherDerived, ?_⟩
    refine Except.bind_eq_ok.mpr ⟨_, Except.mapM_eq_map otherMade, ?_⟩
    rw [List.map_map]
    rfl

theorem generates_of_perm (perm : files.Perm others)
    (distinct : (files.flatMap TemplateFile.declared).Pairwise
      fun first second => ¬ sameIgnoringCase first second)
    (acyclic : ∀ catalog events,
      parse files = .ok (catalog, events) → catalog.Acyclic)
    {functions : List GeneratedFunction}
    (generates : Generates files functions) :
    ∃ of : TemplateFile → List GeneratedFunction, functions = files.flatMap of ∧
      Generates others (others.flatMap of) ∧
      ∀ file ∈ files, (of file).map GeneratedFunction.name = file.declared := by
  obtain ⟨catalog, events, told, parsed, compiled⟩ := generates
  obtain ⟨components, listed, named, other, said, otherParsed, otherListed⟩ :=
    parse_of_perm perm distinct parsed
  have same : ∀ component,
      component ∈ catalog.components ↔ component ∈ other.components := by
    intro component
    rw [listed, otherListed]
    exact (perm.flatMap_right components).mem_iff
  obtain ⟨of, rfl, ofNamed, heard, otherCompiled⟩ :=
    functions_of_mem_iff parsed otherParsed same (acyclic _ _ parsed) compiled
  refine ⟨fun file => (components file).map of, ?_, ?_, ?_⟩
  · rw [listed, List.map_flatMap]
  · refine ⟨other, said, heard, otherParsed, ?_⟩
    rw [otherCompiled, otherListed, List.map_flatMap]
  · intro file member
    rw [← named file member, List.map_map]
    apply List.map_congr_left
    intro component inside
    apply ofNamed
    rw [listed]
    exact List.mem_flatMap.mpr ⟨file, member, inside⟩

/-- Files whose components are told apart without regard to case, and do not
call each other in a circle, have functions in every order or in none. Each file
has the same functions in both orders, and they stand as the files do. -/
theorem functions_follow_files (perm : files.Perm others)
    (distinct : (files.flatMap TemplateFile.declared).Pairwise
      fun first second => ¬ sameIgnoringCase first second)
    (acyclic : ∀ catalog events,
      parse files = .ok (catalog, events) → catalog.Acyclic) :
    ((∃ functions, Generates files functions) ↔ ∃ functions,
      Generates others functions) ∧
    ∀ functions moved, Generates files functions → Generates others moved →
      ∃ of : TemplateFile → List GeneratedFunction,
        functions = files.flatMap of ∧
        moved = others.flatMap of ∧
        ∀ file ∈ files, (of file).map GeneratedFunction.name =
          file.declared := by
  have otherDistinct : (others.flatMap TemplateFile.declared).Pairwise
      fun first second => ¬ sameIgnoringCase first second := by
    refine ((perm.flatMap_right _).pairwise_iff ?_).mp distinct
    intro first second apart same
    exact apart (sameIgnoringCase_iff.mpr (sameIgnoringCase_iff.mp same).symm)
  have otherAcyclic : ∀ other told,
      parse others = .ok (other, told) → other.Acyclic := by
    intro other told otherParsed
    obtain ⟨components, otherListed, _, catalog, events, parsed, listed⟩ :=
      parse_of_perm perm.symm otherDistinct otherParsed
    refine (acyclic catalog events parsed).of_subset ?_
    rw [listed, otherListed]
    exact (perm.symm.flatMap_right components).subset
  refine ⟨⟨?_, ?_⟩, ?_⟩
  · rintro ⟨functions, generates⟩
    obtain ⟨of, _, moved, _⟩ :=
      generates_of_perm perm distinct acyclic generates
    exact ⟨_, moved⟩
  · rintro ⟨functions, generates⟩
    obtain ⟨of, _, moved, _⟩ :=
      generates_of_perm perm.symm otherDistinct otherAcyclic generates
    exact ⟨_, moved⟩
  · intro functions moved generates otherGenerates
    obtain ⟨of, listed, others, named⟩ :=
      generates_of_perm perm distinct acyclic generates
    exact ⟨of, listed, otherGenerates.unique others, named⟩

/-- A page calls a card, which calls a note: with the callers first, and with
the callees first. -/
theorem functions_follow_files_chain :
    let page : TemplateFile := ⟨"page.html",
      "<p _component=\"Page\"><card head=\"\x7b\x7b title \x7d\x7d\" " ++
        "on=\"\x7b\x7b ok \x7d\x7d\"/></p>"⟩
    let card : TemplateFile := ⟨"card.html",
      "<i _component=\"Card\">\x7b\x7b head \x7d\x7d" ++
        "<b _placeholder=\"NOTE\" n=\"\x7b\x7b on \x7d\x7d\"/></i>"⟩
    let note : TemplateFile := ⟨"note.html",
      "<i _component=\"Note\"><b _if=\"n\"/></i><i _component=\"Mark\"/>"⟩
    ∃ of : TemplateFile → List GeneratedFunction,
      Generates [page, card, note] (of page ++ of card ++ of note) ∧
      Generates [note, page, card] (of note ++ of page ++ of card) ∧
      (of note).map GeneratedFunction.name = ["Note", "Mark"] := by
  intro page card note
  have perm : [page, card, note].Perm [note, page, card] := by decide +kernel
  have distinct : ([page, card, note].flatMap TemplateFile.declared).Pairwise
      fun first second => ¬ sameIgnoringCase first second := by decide +kernel
  have rising : (parse [page, card, note]).toOption.all (fun result =>
      result.1.components.all fun component =>
        component.root.targets.all fun target =>
          decide (["Page", "Card", "Note"].idxOf component.name <
            ["Page", "Card", "Note"].idxOf target)) = true := by
    decide +kernel
  have acyclic : ∀ catalog events,
      parse [page, card, note] = .ok (catalog, events) →
      catalog.Acyclic := by
    intro catalog events parsed
    rw [parsed] at rising
    apply acyclic_of_rank (["Page", "Card", "Note"].idxOf ·)
    simpa [Except.toOption] using rising
  have shape : (parse [page, card, note]).map
      (fun result => result.1.functions.map fun _ => ()) =
      .ok (.ok ()) := by decide +kernel
  obtain ⟨⟨catalog, events⟩, parsed, compiled⟩ := Except.map_eq_ok.mp shape
  obtain ⟨⟨functions, told⟩, compiled, _⟩ := Except.map_eq_ok.mp compiled
  have generates : Generates [page, card, note] functions :=
    ⟨catalog, events, told, parsed, compiled⟩
  obtain ⟨both, follow⟩ := functions_follow_files perm distinct acyclic
  obtain ⟨moved, otherGenerates⟩ := both.mp ⟨functions, generates⟩
  obtain ⟨of, rfl, rfl, named⟩ :=
    follow functions moved generates otherGenerates
  have declared : note.declared = ["Note", "Mark"] := by decide +kernel
  refine ⟨of, ?_, ?_, (named note (by simp)).trans declared⟩
  · simpa using generates
  · simpa using otherGenerates

end Catalog

end Stencil
