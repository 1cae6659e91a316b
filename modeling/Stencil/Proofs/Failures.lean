import Stencil.Proofs.Catalogs
import Stencil.Proofs.Linking

namespace Stencil

/-! What can go wrong when a catalog that was read is turned into functions.
Every call finds the signature of its target, so all failures are about
attributes. -/

/-- The error blames an attribute that an author wrote or left out. -/
def GenerationError.BlamesAttribute (error : GenerationError) : Prop :=
  error.cause.kind = .missingAttribute ∨ error.cause.kind = .malformedAttribute

theorem Parameter.ofConstruct_error {callees : Signatures} {root : Construct}
    {error : GenerationError}
    (failed : Parameter.ofConstruct callees root = .error error) :
    error.BlamesAttribute := by
  rcases ofConstruct_of_uses (Construct.uses_iff.mpr rfl) with ⟨_, same⟩ |
    ⟨other, same, reports⟩
  · cases same.symm.trans failed
  · obtain rfl := Except.error.inj (same.symm.trans failed)
    obtain ⟨_, _, _, cause, _⟩ := reports
    rw [GenerationError.BlamesAttribute, cause]
    exact .inr rfl

namespace Call

namespace Draft

variable {target html : String} {parameters : List Parameter} {draft : Draft}
  {error : GenerationError}

theorem bind_error {parameter expression : String}
    (failed : draft.bind target html parameter expression = .error error) :
    error.BlamesAttribute := by
  unfold bind at failed
  split at failed
  · obtain rfl := Except.error.inj failed
    exact .inr rfl
  · cases failed

theorem add_error (supply : Supply)
    (failed : draft.add target html parameters supply =
    .error error) : error.BlamesAttribute := by
  cases supply with
  | ofArgument argument =>
      rw [add, addArgument] at failed
      split at failed
      · cases failed
      · split at failed
        · obtain rfl := Except.error.inj failed
          exact .inr rfl
        · exact bind_error failed
  | ofSlot slot =>
      rw [add, addSlot] at failed
      split at failed
      · cases failed
      · exact bind_error (Except.map_eq_error.mp failed)

theorem argument_error {parameter : Parameter}
    (failed : draft.argument target html parameter = .error error) :
    error.BlamesAttribute := by
  unfold argument at failed
  split at failed
  · obtain rfl := Except.error.inj failed
    exact .inl rfl
  · cases failed

end Draft

theorem link_error {signatures : Signatures} {target html : String}
    {arguments : List Argument} {slots : List SlotArgument}
    {error : GenerationError} (known : target ∈ signatures.names)
    (failed : link signatures target html arguments slots = .error error) :
    error.BlamesAttribute := by
  unfold link at failed
  split at failed
  · rename_i missing
    exact absurd known (Signatures.get?_eq_none_iff.mp missing)
  · rename_i parameters _
    rcases Except.bind_eq_error.mp failed with attributes | ⟨_, _, failed⟩
    · obtain ⟨_, argument, _, draft, _, _, failed⟩ :=
        Except.exists_of_foldlM_error attributes
      exact Draft.add_error (.ofArgument argument) failed
    rcases Except.bind_eq_error.mp failed with others | ⟨_, _, failed⟩
    · obtain ⟨_, slot, _, draft, _, _, failed⟩ :=
        Except.exists_of_foldlM_error others
      exact Draft.add_error (.ofSlot slot) failed
    rcases Except.bind_eq_error.mp failed with ordered | ⟨_, _, ⟨⟩⟩
    obtain ⟨_, parameter, _, _, _, failed⟩ :=
      Except.exists_of_mapM_error ordered
    exact Draft.argument_error failed

end Call

namespace Construct

/-- Every component that is declared or called in the tree has a signature. -/
structure Resolved (signatures : Signatures) (root : Construct) : Prop where
  declared : ∀ construct ∈ root.walk, ∀ name, construct.kind = .component name →
    name ∈ signatures.names
  called : ∀ construct ∈ root.walk, ∀ target arguments,
    construct.kind = .placeholder target arguments → target ∈ signatures.names

end Construct

namespace Declaration

variable {signatures : Signatures} {error : GenerationError}

theorem ofConstructs_error {constructs : List Construct}
    (failed : ofConstructs signatures constructs = .error error) :
    ∃ construct ∈ constructs,
      ofConstruct signatures construct = .error error := by
  induction constructs with
  | nil => cases failed
  | cons construct rest induction =>
      rw [ofConstructs] at failed
      rcases Except.bind_eq_error.mp failed with here | ⟨_, _, failed⟩
      · exact ⟨construct, List.mem_cons_self .., here⟩
      rcases Except.bind_eq_error.mp failed with later | ⟨_, _, ⟨⟩⟩
      obtain ⟨other, member, failed⟩ := induction later
      exact ⟨other, List.mem_cons_of_mem _ member, failed⟩

/-- The declaration of the construct alone fails, whatever is inside it. -/
def FailsAt (signatures : Signatures) (construct : Construct)
    (error : GenerationError) : Prop :=
  (∃ builder inner, content signatures construct builder inner = .error error) ∨
    ∃ name, frame signatures construct.kind name construct.html = .error error

theorem exists_failsAt (root : Construct)
    (failed : ofConstruct signatures root = .error error) :
    ∃ construct ∈ root.walk, FailsAt signatures construct error := by
  induction root using Construct.children_induction with
  | pass root induction =>
      have self := Construct.mem_walk_self root
      obtain ⟨kind, id, span, html, runs, children⟩ := root
      rw [ofConstruct] at failed
      rcases Except.bind_eq_error.mp failed with below | ⟨inner, _, failed⟩
      · obtain ⟨child, inside, failed⟩ := ofConstructs_error below
        obtain ⟨construct, walked, fails⟩ := induction child inside failed
        exact ⟨construct, Construct.mem_walk_of_child inside walked, fails⟩
      rcases Except.bind_eq_error.mp failed with unwritten | ⟨_, _, failed⟩
      · exact ⟨_, self, .inl ⟨_, inner, unwritten⟩⟩
      rcases Except.bind_eq_error.mp failed with unframed | ⟨_, _, ⟨⟩⟩
      exact ⟨_, self, .inr ⟨_, unframed⟩⟩

theorem ofConstruct_error {root : Construct}
    (resolved : root.Resolved signatures)
    (failed : ofConstruct signatures root = .error error) :
    error.BlamesAttribute := by
  obtain ⟨construct, walked, ⟨builder, inner, failed⟩ | ⟨name, failed⟩⟩ :=
    exists_failsAt root failed
  · unfold content at failed
    split at failed
    · rename_i target arguments kind
      exact Call.link_error
        (resolved.called construct walked target arguments kind)
        (Except.map_eq_error.mp failed)
    · cases failed
  · unfold frame at failed
    split at failed
    · rename_i component kind
      split at failed
      · rename_i missing
        exact absurd (resolved.declared construct walked component kind)
          (Signatures.get?_eq_none_iff.mp missing)
      · cases failed
    all_goals cases failed

end Declaration

namespace Signatures

variable {catalog : Catalog} {error : GenerationError}

structure FailsAt (catalog : Catalog) (component : Component)
    (error : GenerationError) :
    Prop where
  member : component ∈ catalog.components
  derivation : ∃ callees,
    Derivation catalog callees ∧ component.name ∉ callees.names ∧
    ∃ inner, Parameter.ofConstruct callees component.root = .error inner ∧
      error = inner.inComponent component.name

theorem complete_error {component : Component} {callees : Signatures}
    (failed : complete component callees = .error error) :
    ∃ inner, Parameter.ofConstruct callees component.root = .error inner ∧
      error = inner.inComponent component.name := by
  unfold complete at failed
  split at failed
  · rename_i inner derived
    exact ⟨inner, derived, (Except.error.inj failed).symm⟩
  · cases failed

/-- A search that fails has come to a component whose own parameters fail. -/
theorem extend_error {available : List Component} {name : String}
    {before : Signatures} (inside : available ⊆ catalog.components)
    (path : ∀ other ∈ catalog.names, other ∉ available.map Component.name →
      Relation.TransGen catalog.Calls other name)
    (derivation : Derivation catalog before)
    (failed : extend available name before = .error error) :
    ∃ component, FailsAt catalog component error := by
  induction available, name, before using extend.induct with
  | case1 available name before known =>
      rw [extend, if_pos known] at failed
      cases failed
  | case2 available name before new missing =>
      have new : name ∉ before.names := get?_eq_none_iff.mp (by simpa using new)
      rw [extend_new new, missing] at failed
      cases failed
  | case3 available name before new component found induction =>
      have new : name ∉ before.names := get?_eq_none_iff.mp (by simpa using new)
      have listed := List.mem_of_find?_eq_some found
      have member := inside listed
      obtain rfl : component.name = name := by simpa using List.find?_some found
      rw [extend_new new, found] at failed
      have fits : others available component.name ⊆ catalog.components :=
        fun other kept => inside (List.mem_of_mem_filter kept)
      have onward : ∀ target ∈ component.root.targets, ∀ other ∈ catalog.names,
          other ∉ (others available component.name).map Component.name →
            Relation.TransGen catalog.Calls other target :=
        fun target called =>
          path_to_target path (Catalog.calls_of_target member called)
      have grows : ∀ {names : List String} {after : Signatures},
          names ⊆ component.root.targets →
          names.foldlM (fun derived target =>
            extend (others available component.name) target derived) before =
              .ok after →
          Extends catalog (others available component.name) before after := by
        intro names after called ran
        refine (extends_of_foldlM catalog ?_ ran).1
        intro target listed start stop
        exact extends_of_extend fits (onward target (called listed))
      rcases Except.bind_eq_error.mp failed with callee | ⟨callees, called, own⟩
      · obtain ⟨earlier, target, later, state, split, ran, failed⟩ :=
          Except.exists_of_foldlM_error callee
        have called : target ∈ component.root.targets := by simp [split]
        have before : earlier ⊆ component.root.targets := by simp [split]
        exact induction state target fits (onward target called)
          ((grows before ran).derivation derivation) failed
      · obtain ⟨inner, underived, named⟩ := complete_error own
        have extension := grows (List.Subset.refl _) called
        exact ⟨component, member, callees, extension.derivation derivation,
          extension.fresh new,
          inner, underived, named⟩

theorem ofCatalog_error (failed : ofCatalog catalog = .error error) :
    ∃ component, FailsAt catalog component error := by
  have whole : ∀ name, ∀ other ∈ catalog.names,
      other ∉ catalog.components.map Component.name →
      Relation.TransGen catalog.Calls other name :=
    fun _ other listed unavailable => absurd listed unavailable
  obtain ⟨earlier, name, _, state, _, ran, failed⟩ :=
    Except.exists_of_foldlM_error failed
  have each : ∀ name ∈ earlier, ∀ before after,
      extend catalog.components name before = .ok after →
      Extends catalog catalog.components before after ∧
        (name ∈ catalog.components.map Component.name → name ∈ after.names) :=
    fun name _ _ _ => extends_of_extend (List.Subset.refl _) (whole name)
  have extension := (extends_of_foldlM catalog each ran).1
  exact extend_error (List.Subset.refl _) (whole name)
    (extension.derivation .empty) failed

end Signatures

namespace Catalog

variable {files : List TemplateFile} {catalog : Catalog} {events : List Event}

/-- How the component is the one that is being generated when the error comes
up: its signature is being derived, or all signatures are known, the components
before it are declared, and it is not. -/
inductive FailsAt (catalog : Catalog) (component : Component)
    (error : GenerationError) : Prop
  | signature (fails : Signatures.FailsAt catalog component error)
  | declaration {signatures : Signatures} {before after : List Component}
      {inner : GenerationError}
      (derived : Signatures.ofCatalog catalog = .ok signatures)
      (split : catalog.components = before ++ component :: after)
      (earlier : ∀ other ∈ before,
        ∃ whole, Declaration.ofConstruct signatures other.root = .ok whole)
      (failed : Declaration.ofConstruct signatures component.root =
        .error inner)
      (named : error = inner.inComponent component.name)

theorem functions_failsAt {error : GenerationError}
    (failed : catalog.functions = .error error) :
    ∃ component, FailsAt catalog component error := by
  unfold functions at failed
  rcases Except.bind_eq_error.mp failed with underived |
    ⟨signatures, derived, failed⟩
  · obtain ⟨component, fails⟩ := Signatures.ofCatalog_error underived
    exact ⟨component, .signature fails⟩
  rcases Except.bind_eq_error.mp failed with ungenerated | ⟨_, _, ⟨⟩⟩
  obtain ⟨before, component, after, split, earlier, failed⟩ :=
    Except.exists_of_mapM_error ungenerated
  unfold GeneratedFunction.ofComponent at failed
  split at failed
  · rename_i inner undeclared
    refine ⟨component, .declaration derived split ?_ undeclared
      (Except.error.inj failed).symm⟩
    intro other member
    obtain ⟨result, made⟩ := earlier other member
    obtain ⟨whole, declared, _⟩ :=
      GeneratedFunction.generated_of_ofComponent made
    exact ⟨whole, declared⟩
  · cases failed

theorem resolved (parsed : parse files = .ok (catalog, events))
    {signatures : Signatures}
    (derived : Signatures.ofCatalog catalog = .ok signatures)
    {component : Component} (member : component ∈ catalog.components) :
    component.root.Resolved signatures := by
  obtain ⟨_, complete⟩ := Signatures.derivation_of_ofCatalog derived
  obtain ⟨_, _, gives⟩ := exists_gives parsed
  obtain ⟨_, _, given⟩ := gives.exists_of_mem_right member
  constructor
  · intro construct walked name kind
    rw [Construct.walk_eq] at walked
    rcases List.mem_cons.mp walked with rfl | below
    · obtain rfl := Construct.Kind.component.inj (given.kind.symm.trans kind)
      exact complete _ (List.mem_map_of_mem member)
    · obtain ⟨child, inside, under⟩ := List.mem_flatMap.mp below
      exact absurd kind (given.built.only_root child inside construct under
        name)
  · intro construct walked target arguments kind
    obtain ⟨other, listed, rfl, _⟩ := exists_target parsed member walked kind
    exact complete _ (List.mem_map_of_mem listed)

/-- Where the functions of a catalog that was read cannot be generated, an
attribute is missing or malformed, and the error names the component that is
being generated. -/
theorem functions_error (parsed : parse files = .ok (catalog, events))
    {error : GenerationError} (failed : catalog.functions = .error error) :
    (error.cause.kind = .missingAttribute ∨
      error.cause.kind = .malformedAttribute) ∧
      ∃ component ∈ catalog.components, error.component = some component.name ∧
        FailsAt catalog component error := by
  obtain ⟨component, fails⟩ := functions_failsAt failed
  cases fails with
  | signature fails =>
      obtain ⟨member, callees, derivation, new, inner, underived, rfl⟩ := fails
      have blames := Parameter.ofConstruct_error underived
      exact ⟨blames, component, member, rfl,
        .signature ⟨member, callees, derivation, new, inner, underived, rfl⟩⟩
  | declaration derived split earlier undeclared named =>
      have member : component ∈ catalog.components := by simp [split]
      have blames :=
        Declaration.ofConstruct_error (resolved parsed derived member)
          undeclared
      subst named
      exact ⟨blames, component, member, rfl,
        .declaration derived split earlier undeclared rfl⟩

/-- A cycle of calls in which a component leaves out what the other one
needs. -/
theorem functions_error_cycle :
    let files : List TemplateFile :=
      [⟨"ping.html",
        "<i _component=\"Ping\"><b _if=\"on\"><pong title=\"a\"/></b></i>"⟩,
        ⟨"pong.html", "<i _component=\"Pong\">$prop('title')<ping/></i>"⟩]
    ∃ catalog events error, parse files = .ok (catalog, events) ∧
      catalog.functions = .error error ∧
      error.message = "Missing required attribute in component 'Pong': " ++
        "<Ping> needs a value for `on bool` (near `<ping/>`)" ∧
      (error.cause.kind = .missingAttribute ∨
        error.cause.kind = .malformedAttribute) ∧
      ∃ component ∈ catalog.components, error.component = some component.name ∧
        FailsAt catalog component error := by
  intro files
  have shape : (parse files).map (fun result =>
      result.1.functions.map (fun _ => ()) |>.mapError
        GenerationError.message) =
      .ok (.error ("Missing required attribute in component 'Pong': " ++
        "<Ping> needs a value for `on bool` (near `<ping/>`)")) := by
    decide +kernel
  obtain ⟨⟨catalog, events⟩, parsed, outcome⟩ := Except.map_eq_ok.mp shape
  cases failed : catalog.functions with
  | ok result =>
      simp only [failed] at outcome
      cases outcome
  | error error =>
      simp only [failed] at outcome
      obtain ⟨blames, named⟩ := functions_error parsed failed
      exact ⟨catalog, events, error, parsed, failed, Except.error.inj outcome,
        blames, named⟩

end Catalog

end Stencil
