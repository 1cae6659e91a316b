import Mathlib.Data.List.Nodup
import Mathlib.Logic.Relation
import Stencil.Proofs.Checked.Reading
import Stencil.Proofs.Components
import Stencil.Proofs.Parameters
import Stencil.Signature.Resolve

namespace Stencil

/-! Signatures are derived along the calls between components. A component
stands behind those it calls, unless a chain of calls leads back to it. -/

def Catalog.Calls (catalog : Catalog) (caller callee : String) : Prop :=
  ∃ component ∈ catalog.components, component.name = caller ∧
    ∃ construct ∈ component.root.walk, construct.kind.target? = some callee

theorem Catalog.calls_of_target {catalog : Catalog} {component : Component}
    {target : String} (member : component ∈ catalog.components)
    (called : target ∈ component.root.targets) :
    catalog.Calls component.name target :=
  ⟨component, member, rfl, List.mem_filterMap.mp called⟩

theorem Catalog.eq_of_name_eq {catalog : Catalog} (apart : catalog.names.Nodup)
    {first second : Component} (firstMember : first ∈ catalog.components)
    (secondMember : second ∈ catalog.components)
    (named : first.name = second.name) :
    first = second :=
  List.inj_on_of_nodup_map apart firstMember secondMember named

namespace Signatures

def names (signatures : Signatures) : List String :=
  signatures.entries.map Signature.component

@[simp] theorem names_insert (signatures : Signatures) (signature : Signature) :
    (signatures.insert signature).names =
      signatures.names ++ [signature.component] := by
  simp [names, insert]

theorem get?_eq_none_iff {signatures : Signatures} {name : String} :
    signatures.get? name = none ↔ name ∉ signatures.names := by
  simp [get?, names]

theorem get?_of_append {callees signatures : Signatures} {more : List Signature}
    {name : String} (split : signatures.entries = callees.entries ++ more)
    (known : name ∈ callees.names) :
    signatures.get? name = callees.get? name := by
  obtain ⟨entry, listed, named⟩ := List.mem_map.mp known
  have found :
      (callees.entries.find? fun entry => entry.component == name).isSome :=
    List.find?_isSome.mpr ⟨entry, listed, by simpa using named⟩
  rw [get?, get?, split, List.find?_append, Option.or_of_isSome found]

theorem get?_of_mem {signatures : Signatures} (apart : signatures.names.Nodup)
    {entry : Signature} (listed : entry ∈ signatures.entries) :
    signatures.get? entry.component = some entry.parameters := by
  obtain ⟨found, first⟩ : ∃ found,
      signatures.entries.find? (fun other => other.component ==
        entry.component) = some found :=
    Option.isSome_iff_exists.mp (List.find?_isSome.mpr ⟨entry, listed, by simp⟩)
  have named : found.component = entry.component := by
    simpa using List.find?_some first
  have same : found = entry :=
    List.inj_on_of_nodup_map apart (List.mem_of_find?_eq_some first) listed
      named
  rw [get?, first, same, Option.map_some]

theorem mem_of_get? {signatures : Signatures} {name : String}
    {parameters : List Parameter}
    (known : signatures.get? name = some parameters) :
    ⟨name, parameters⟩ ∈ signatures.entries := by
  obtain ⟨entry, found, rfl⟩ := Option.map_eq_some_iff.mp known
  have named : entry.component = name := by simpa using List.find?_some found
  rw [← named]
  exact List.mem_of_find?_eq_some found

section Equations

variable {available : List Component} {name : String} {signatures : Signatures}

def complete (component : Component) (callees : Signatures) :
    Except GenerationError Signatures :=
  match Parameter.ofConstruct callees component.root with
  | .error error => .error (error.inComponent component.name)
  | .ok parameters => .ok (callees.insert ⟨component.name, parameters⟩)

theorem complete_ok {component : Component} {callees after : Signatures}
    (completed : complete component callees = .ok after) :
    ∃ parameters, Parameter.ofConstruct callees component.root =
      .ok parameters ∧
      after = callees.insert ⟨component.name, parameters⟩ := by
  unfold complete at completed
  split at completed
  · cases completed
  · rename_i parameters derived
    exact ⟨parameters, derived, (Except.ok.inj completed).symm⟩

theorem extend_known (known : name ∈ signatures.names) :
    extend available name signatures = .ok signatures := by
  have found : (signatures.get? name).isSome := by
    rw [Option.isSome_iff_ne_none]
    exact fun missing => get?_eq_none_iff.mp missing known
  rw [extend, if_pos found]

theorem extend_new (new : name ∉ signatures.names) :
    extend available name signatures =
      match available.find? fun candidate => candidate.name == name with
      | none => .ok signatures
      | some component =>
          component.root.targets.foldlM
            (fun derived target => extend (others available name) target
              derived) signatures >>=
              complete component := by
  rw [extend, get?_eq_none_iff.mpr new, if_neg (by simp)]
  split
  · rename_i missing
    rw [missing]
  · rename_i component found
    rw [found]
    rfl

end Equations

section Derivations

/-- Signatures that are added one behind the other, each derived from those
before it. What a component calls either stands before it or leads back to
it. -/
inductive Derivation (catalog : Catalog) : Signatures → Prop
  | empty : Derivation catalog .empty
  | insert {callees : Signatures} {component : Component}
      {parameters : List Parameter}
      (before : Derivation catalog callees)
        (member : component ∈ catalog.components)
      (fresh : component.name ∉ callees.names)
      (derived : Parameter.ofConstruct callees component.root = .ok parameters)
      (called : ∀ target ∈ component.root.targets, target ∈ catalog.names →
        target ∈ callees.names ∨
        Relation.TransGen catalog.Calls target component.name) :
      Derivation catalog (callees.insert ⟨component.name, parameters⟩)

/-- The signatures grow by components that are available. -/
structure Extends (catalog : Catalog) (available : List Component)
    (before after : Signatures) :
    Prop where
  derivation : Derivation catalog before → Derivation catalog after
  kept : before.names ⊆ after.names
  added : ∀ name ∈ after.names,
    name ∈ before.names ∨ name ∈ available.map Component.name

variable {catalog : Catalog} {available : List Component}
  {before after : Signatures}

theorem Extends.refl (signatures : Signatures) :
    Extends catalog available signatures signatures :=
  ⟨id, List.Subset.refl _, fun _ member => .inl member⟩

theorem Extends.trans {middle : Signatures}
    (first : Extends catalog available before middle)
    (second : Extends catalog available middle after) :
    Extends catalog available before after := by
  refine ⟨second.derivation ∘ first.derivation,
    List.Subset.trans first.kept second.kept, ?_⟩
  intro name member
  rcases second.added name member with earlier | inside
  · exact first.added name earlier
  · exact .inr inside

theorem extends_of_foldlM (catalog : Catalog) {names : List String}
    (each : ∀ name ∈ names, ∀ before after,
      extend available name before = .ok after →
      Extends catalog available before after ∧
        (name ∈ available.map Component.name → name ∈ after.names))
    (ran :
      names.foldlM (fun derived name => extend available name derived) before =
        .ok after) :
    Extends catalog available before after ∧
      ∀ name ∈ names, name ∈ available.map Component.name →
        name ∈ after.names := by
  induction names generalizing before with
  | nil =>
      obtain rfl := Except.pure_eq_ok.mp ran
      exact ⟨.refl _, nofun⟩
  | cons name rest induction =>
      rw [List.foldlM_cons] at ran
      obtain ⟨middle, step, ran⟩ := Except.bind_eq_ok.mp ran
      obtain ⟨first, found⟩ :=
        each name (List.mem_cons_self ..) before middle step
      obtain ⟨second, others⟩ :=
        induction (fun other member => each other
          (List.mem_cons_of_mem _ member)) ran
      refine ⟨first.trans second, ?_⟩
      intro other member inside
      rcases List.mem_cons.mp member with rfl | later
      · exact second.kept (found inside)
      · exact others other later inside

theorem mem_others {name other : String} :
    other ∈ (others available name).map Component.name ↔
    other ∈ available.map Component.name ∧ other ≠ name := by
  simp only [others, List.mem_map, List.mem_filter, bne_iff_ne]
  constructor
  · rintro ⟨component, ⟨member, different⟩, rfl⟩
    exact ⟨⟨component, member, rfl⟩, different⟩
  · rintro ⟨⟨component, member, rfl⟩, different⟩
    exact ⟨component, ⟨member, different⟩, rfl⟩

theorem Extends.fresh {name : String} {callees : Signatures}
    (extension : Extends catalog (others available name) before callees)
    (new : name ∉ before.names) : name ∉ callees.names := by
  intro member
  rcases extension.added name member with earlier | other
  · exact new earlier
  · exact (mem_others.mp other).2 rfl

theorem Extends.insert {component : Component} {callees : Signatures}
    {parameters : List Parameter}
    (extension : Extends catalog (others available component.name) before
      callees)
    (inside : available ⊆ catalog.components) (listed : component ∈ available)
    (new : component.name ∉ before.names)
    (derived : Parameter.ofConstruct callees component.root = .ok parameters)
    (called : ∀ target ∈ component.root.targets, target ∈ catalog.names →
      target ∈ callees.names ∨
      Relation.TransGen catalog.Calls target component.name) :
    Extends catalog available before
      (callees.insert ⟨component.name, parameters⟩) := by
  refine ⟨fun derivation => .insert (extension.derivation derivation)
    (inside listed)
    (extension.fresh new) derived called, ?_, ?_⟩
  · rw [names_insert]
    exact List.Subset.trans extension.kept (List.subset_append_left _ _)
  · intro name member
    rw [names_insert] at member
    rcases List.mem_append.mp member with earlier | last
    · exact (extension.added name earlier).imp_right fun other =>
        (mem_others.mp other).1
    · obtain rfl := List.mem_singleton.mp last
      exact .inr (List.mem_map_of_mem listed)

theorem reaches_of_path {name : String}
    (path : ∀ other ∈ catalog.names, other ∉ available.map Component.name →
      Relation.TransGen catalog.Calls other name) :
    ∀ other ∈ catalog.names,
      other ∉ (others available name).map Component.name →
      other = name ∨ Relation.TransGen catalog.Calls other name := by
  intro other listed unavailable
  by_cases same : other = name
  · exact .inl same
  · exact .inr (path other listed fun inside => unavailable
      (mem_others.mpr ⟨inside, same⟩))

theorem path_to_target {name target : String}
    (path : ∀ other ∈ catalog.names, other ∉ available.map Component.name →
      Relation.TransGen catalog.Calls other name)
    (call : catalog.Calls name target) :
    ∀ other ∈ catalog.names,
      other ∉ (others available name).map Component.name →
      Relation.TransGen catalog.Calls other target := by
  intro other listed unavailable
  rcases reaches_of_path path other listed unavailable with rfl | leads
  · exact .single call
  · exact leads.tail call

/-- All components that are not available lie on the path to the one that is
looked for, so they reach it. -/
theorem extends_of_extend {name : String}
    (inside : available ⊆ catalog.components)
    (path : ∀ other ∈ catalog.names, other ∉ available.map Component.name →
      Relation.TransGen catalog.Calls other name)
    (ran : extend available name before = .ok after) :
    Extends catalog available before after ∧
      (name ∈ available.map Component.name → name ∈ after.names) := by
  induction available, name, before using extend.induct generalizing after with
  | case1 available name before known =>
      have known : name ∈ before.names := by
        by_contra new
        simp [get?_eq_none_iff.mpr new] at known
      rw [extend_known known] at ran
      obtain rfl := Except.ok.inj ran
      exact ⟨.refl _, fun _ => known⟩
  | case2 available name before new missing =>
      have new : name ∉ before.names := get?_eq_none_iff.mp (by simpa using new)
      rw [extend_new new, missing] at ran
      obtain rfl := Except.ok.inj ran
      refine ⟨.refl _, ?_⟩
      intro member
      obtain ⟨component, listed, named⟩ := List.mem_map.mp member
      exact absurd (List.find?_eq_none.mp missing component listed)
        (by simp [named])
  | case3 available name before new component found induction =>
      have new : name ∉ before.names := get?_eq_none_iff.mp (by simpa using new)
      have member := inside (List.mem_of_find?_eq_some found)
      obtain rfl : component.name = name := by simpa using List.find?_some found
      rw [extend_new new, found] at ran
      obtain ⟨callees, called, completed⟩ := Except.bind_eq_ok.mp ran
      obtain ⟨parameters, derived, rfl⟩ := complete_ok completed
      have behind := reaches_of_path path
      have fits : others available component.name ⊆ catalog.components :=
        fun other kept => inside (List.mem_of_mem_filter kept)
      obtain ⟨extension, reached⟩ := extends_of_foldlM catalog (by
        intro target listed before after
        apply induction before target fits
        exact path_to_target path (Catalog.calls_of_target member listed))
          called
      have reaches : ∀ target ∈ component.root.targets, target ∈ catalog.names →
          target ∈ callees.names ∨
          Relation.TransGen catalog.Calls target component.name := by
        intro target listed known
        by_cases available : target ∈ (others available component.name).map
          Component.name
        · exact .inl (reached target listed available)
        · rcases behind target known available with rfl | leads
          · exact .inr (.single (Catalog.calls_of_target member listed))
          · exact .inr leads
      refine ⟨extension.insert inside (List.mem_of_find?_eq_some found) new
        derived reaches, ?_⟩
      intro _
      simp

theorem derivation_of_ofCatalog {signatures : Signatures}
    (derived : ofCatalog catalog = .ok signatures) :
    Derivation catalog signatures ∧ ∀ name ∈ catalog.names,
    name ∈ signatures.names := by
  obtain ⟨extension, reached⟩ := extends_of_foldlM catalog (by
    intro name _ before after
    apply extends_of_extend (List.Subset.refl _)
    intro other listed unavailable
    exact absurd listed unavailable) derived
  exact ⟨extension.derivation .empty, fun name listed =>
    reached name listed listed⟩

end Derivations

namespace Derivation

variable {catalog : Catalog} {signatures : Signatures}

theorem nodup_names (derivation : Derivation catalog signatures) :
    signatures.names.Nodup := by
  induction derivation with
  | empty => exact List.nodup_nil
  | insert _ _ fresh _ _ induction =>
      rw [names_insert, List.nodup_append]
      refine ⟨induction, List.nodup_singleton _, ?_⟩
      rintro _ member _ last rfl
      rw [List.mem_singleton.mp last] at member
      exact fresh member

theorem names_subset (derivation : Derivation catalog signatures) :
    signatures.names ⊆ catalog.names := by
  induction derivation with
  | empty => exact List.nil_subset _
  | insert _ member _ _ _ induction =>
      rw [names_insert]
      refine List.append_subset.mpr ⟨induction, ?_⟩
      intro name last
      rw [List.mem_singleton.mp last]
      exact List.mem_map_of_mem member

theorem exists_callees (derivation : Derivation catalog signatures)
    {entry : Signature} (listed : entry ∈ signatures.entries) :
    ∃ callees more, signatures.entries = callees.entries ++ entry :: more ∧
      ∃ component ∈ catalog.components, component.name = entry.component ∧
        Parameter.ofConstruct callees component.root = .ok entry.parameters ∧
        ∀ target ∈ component.root.targets, target ∈ catalog.names →
          target ∈ callees.names ∨
          Relation.TransGen catalog.Calls target component.name := by
  induction derivation with
  | empty => cases listed
  | @insert callees component parameters _ member _ derived called induction =>
      rcases List.mem_append.mp listed with earlier | last
      · obtain ⟨before, more, split, rest⟩ := induction earlier
        refine ⟨before, more ++ [⟨component.name, parameters⟩], ?_, rest⟩
        simp [Signatures.insert, split]
      · obtain rfl := List.mem_singleton.mp last
        exact ⟨callees, [], rfl, component, member, rfl, derived, called⟩

theorem nodup_parameters (derivation : Derivation catalog signatures)
    {name : String} {parameters : List Parameter}
    (known : signatures.get? name = some parameters) :
    (parameters.map Parameter.name).Nodup := by
  obtain ⟨_, _, _, _, _, _, derived, _⟩ :=
    derivation.exists_callees (mem_of_get? known)
  exact Parameter.nodup_ofConstruct derived

theorem pairwise (derivation : Derivation catalog signatures)
    (apart : catalog.names.Nodup) :
    signatures.entries.Pairwise fun first second =>
      catalog.Calls first.component second.component →
        Relation.TransGen catalog.Calls second.component first.component := by
  induction derivation with
  | empty => exact .nil
  | @insert callees component parameters before member fresh _ _ induction =>
      rw [Signatures.insert, List.pairwise_append]
      refine ⟨induction, List.pairwise_singleton _ _, ?_⟩
      intro entry earlier last only calls
      obtain rfl := List.mem_singleton.mp only
      obtain ⟨older, more, split, caller, known, named, _, called⟩ :=
        before.exists_callees earlier
      obtain ⟨other, otherKnown, otherNamed, construct, walked, target⟩ := calls
      obtain rfl := Catalog.eq_of_name_eq apart otherKnown known
        (otherNamed.trans named.symm)
      rw [← named]
      refine (called component.name
        (List.mem_filterMap.mpr ⟨construct, walked, target⟩)
        (List.mem_map_of_mem member)).resolve_left ?_
      intro derived
      apply fresh
      rw [names, split, List.map_append]
      exact List.mem_append_left _ derived

end Derivation

section Search

/-- The search for signatures by the names on the path alone. It has no outcome
where calls nest as deep as the limit. -/
def search (catalog : Catalog) :
    Nat → List String → String → Signatures →
    Checked.Reading GenerationError Signatures
  | 0, _, _, _ => ExceptT.mk none
  | limit + 1, path, name, signatures =>
      if name ∈ signatures.names ∨ name ∈ path then .settled (.ok signatures)
      else
        match catalog.get? name with
        | none => .settled (.ok signatures)
        | some component => do
            let callees ← component.root.targets.foldlM
              (fun derived target => search catalog limit
                (path ++ [name]) target derived)
              signatures
            .settled (complete component callees)

def searchAll (catalog : Catalog) (limit : Nat) :
    Checked.Reading GenerationError Signatures :=
  catalog.names.foldlM
    (fun derived name => search catalog limit [] name derived) .empty

def beside (catalog : Catalog) (path : List String) : List Component :=
  catalog.components.filter fun component => component.name ∉ path

variable {catalog : Catalog} {path : List String} {name : String}

theorem others_beside :
    others (beside catalog path) name = beside catalog (path ++ [name]) := by
  unfold others beside
  rw [List.filter_filter]
  apply List.filter_congr
  intro component _
  rw [Bool.eq_iff_iff]
  simp [and_comm]

theorem find?_beside (outside : name ∉ path) :
    (beside catalog path).find? (fun candidate => candidate.name == name) =
      catalog.get? name := by
  unfold beside Catalog.get?
  rw [List.find?_filter]
  congr 1
  funext component
  rw [Bool.eq_iff_iff]
  grind

theorem find?_beside_of_mem (onPath : name ∈ path) :
    (beside catalog path).find? (fun candidate => candidate.name == name) =
      none := by
  rw [List.find?_eq_none]
  intro component kept named
  have outside := (List.mem_filter.mp kept).2
  simp_all

/-- The path holds no name twice, so calls nest no deeper than there are
components beside it. -/
theorem search_eq (limit : Nat) (path : List String) (name : String)
    (signatures : Signatures) (room : (beside catalog path).length < limit) :
    search catalog limit path name signatures =
      .settled (extend (beside catalog path) name signatures) := by
  induction limit generalizing path name signatures with
  | zero => cases room
  | succ limit induction =>
      rw [search]
      by_cases known : name ∈ signatures.names
      · rw [if_pos (.inl known), extend_known known]
      by_cases onPath : name ∈ path
      · rw [if_pos (.inr onPath), extend_new known, find?_beside_of_mem onPath]
      rw [if_neg (not_or_intro known onPath), extend_new known,
        find?_beside onPath]
      cases found : catalog.get? name with
      | none => rfl
      | some component =>
          rw [← find?_beside onPath] at found
          have shorter := length_others_lt found
          rw [others_beside] at shorter
          rw [others_beside]
          apply Checked.Reading.bind_settled
          · apply Checked.Reading.foldlM_settled
            intro target _ derived
            exact induction _ target derived (by omega)
          · intro callees _
            rfl

/-- Calls nest no deeper than there are components, whatever the calls between
them are. -/
theorem searchAll_eq (catalog : Catalog) {limit : Nat}
    (room : catalog.components.length < limit) :
    searchAll catalog limit = .settled (ofCatalog catalog) := by
  have start : beside catalog [] = catalog.components := by simp [beside]
  apply Checked.Reading.foldlM_settled
  intro name _ derived
  rw [← start] at room
  rw [search_eq limit [] name derived room, start]

end Search

/-- The search through the calls of a catalog ends, calls nest no deeper than
there are components, and the signatures that it gives are one for each
component. A callee stands behind its caller only where calls lead back from it
to the caller. -/
theorem ofCatalog_resolves {files : List TemplateFile} {catalog : Catalog}
    {events : List Event}
    (parsed : Catalog.parse files = .ok (catalog, events)) :
    (∀ limit, catalog.components.length < limit →
      (searchAll catalog limit).run = some (ofCatalog catalog)) ∧
    ∀ signatures, ofCatalog catalog = .ok signatures →
      signatures.names.Perm catalog.names ∧ signatures.names.Nodup ∧
      signatures.entries.Pairwise fun first second =>
        catalog.Calls first.component second.component →
          Relation.TransGen catalog.Calls second.component first.component := by
  have apart := Catalog.nodup_names parsed
  refine ⟨fun limit room => by rw [searchAll_eq catalog room]; rfl, ?_⟩
  intro signatures derived
  obtain ⟨derivation, complete⟩ := derivation_of_ofCatalog derived
  have nodup := derivation.nodup_names
  refine ⟨?_, nodup, derivation.pairwise apart⟩
  rw [List.perm_ext_iff_of_nodup nodup apart]
  intro name
  exact ⟨fun member => derivation.names_subset member, complete name⟩

/-- The first component calls into a cycle of two, which is cut where it comes
back to its start. -/
theorem ofCatalog_resolves_cycle :
    let files : List TemplateFile :=
      [⟨"page.html",
        "<main _component=\"Page\"><ping n=\"\x7b\x7b m \x7d\x7d\"/></main>"⟩,
        ⟨"ping.html",
          "<i _component=\"Ping\"><pong n=\"\x7b\x7b n \x7d\x7d\"/></i>"⟩,
        ⟨"pong.html",
          "<i _component=\"Pong\"><b _if=\"n\"/>" ++
          "<ping n=\"\x7b\x7b n \x7d\x7d\"/></i>"⟩]
    ∃ catalog events signatures, Catalog.parse files = .ok (catalog, events) ∧
      ofCatalog catalog = .ok signatures ∧
      signatures.entries =
        [⟨"Pong", [⟨"n", "bool"⟩]⟩, ⟨"Ping", [⟨"n", "bool"⟩]⟩,
        ⟨"Page", [⟨"m", "bool"⟩]⟩] ∧
      (searchAll catalog 4).run = some (.ok signatures) ∧
      signatures.names.Perm catalog.names ∧
      signatures.entries.Pairwise fun first second =>
        catalog.Calls first.component second.component →
          Relation.TransGen catalog.Calls second.component first.component := by
  intro files
  have shape : (Catalog.parse files).map (fun result =>
      (result.1.components.length,
        (ofCatalog result.1).map Signatures.entries)) =
      .ok (3, .ok [⟨"Pong", [⟨"n", "bool"⟩]⟩, ⟨"Ping", [⟨"n", "bool"⟩]⟩,
        ⟨"Page", [⟨"m", "bool"⟩]⟩]) := by decide +kernel
  obtain ⟨⟨catalog, events⟩, parsed, shape⟩ := Except.map_eq_ok.mp shape
  obtain ⟨size, entries⟩ := Prod.mk.inj shape
  obtain ⟨signatures, derived, entries⟩ := Except.map_eq_ok.mp entries
  obtain ⟨ends, resolved⟩ := ofCatalog_resolves parsed
  obtain ⟨complete, _, ordered⟩ := resolved signatures derived
  have ended := ends 4 (size ▸ Nat.lt_succ_self 3)
  rw [derived] at ended
  exact ⟨catalog, events, signatures, parsed, derived, entries, ended, complete,
    ordered⟩

/-- A name that is passed on whole has the type of the parameter that it goes
to, unless the call lies on a cycle. -/
theorem forwarded_type {files : List TemplateFile} {catalog : Catalog}
    {events : List Event} (parsed : Catalog.parse files = .ok (catalog, events))
    {signatures : Signatures} (derived : ofCatalog catalog = .ok signatures)
    {caller : Component} (member : caller ∈ catalog.components)
    {around : List Construct} {placeholder : Construct}
    (placed : (around, placeholder) ∈ caller.root.lineages []) {target : String}
    {arguments : List Argument}
    (kind : placeholder.kind = .placeholder target arguments)
    (acyclic : ¬ Relation.TransGen catalog.Calls target caller.name)
    {argument : Argument} (passed : argument ∈ arguments) {marker : Marker}
    {name : String} (value : argument.value = .expression marker)
    (declares : marker.Declares name)
    (unbound : ∀ outer ∈ around, outer.kind.item? ≠ some name)
    {parameters : List Parameter}
    (known : signatures.get? target = some parameters) {parameter : Parameter}
    (bound : Parameter.find? parameters argument.name = some parameter) :
    ∃ own, signatures.get? caller.name = some own ∧
      ⟨name, parameter.type⟩ ∈ own ∧
      ∀ other ∈ own, other.name = name → other.type = parameter.type := by
  have apart := Catalog.nodup_names parsed
  obtain ⟨derivation, complete⟩ := derivation_of_ofCatalog derived
  obtain ⟨entry, listed, named⟩ :=
    List.mem_map.mp (complete _ (List.mem_map_of_mem member))
  obtain ⟨callees, more, split, component, componentMember, componentNamed, own,
      called⟩ :=
    derivation.exists_callees listed
  obtain rfl := Catalog.eq_of_name_eq apart componentMember member
    (componentNamed.trans named)
  have targetKnown : target ∈ signatures.names :=
    List.mem_map_of_mem (mem_of_get? known)
  have walked : placeholder ∈ component.root.walk := by
    rw [← Construct.lineages_map_snd component.root []]
    exact List.mem_map_of_mem placed
  have listedTarget : target ∈ component.root.targets :=
    List.mem_filterMap.mpr ⟨placeholder, walked, by rw [kind]; rfl⟩
  have before : target ∈ callees.names :=
    (called target listedTarget
      (derivation.names_subset targetKnown)).resolve_right acyclic
  rw [get?_of_append split before] at known
  have used : component.root.Uses callees _ := Construct.uses_iff.mpr rfl
  have forwarded := Construct.mem_uses_of_forwarded used placed kind passed
    value declares unbound
    (.bound known bound)
  have contained := Parameter.mem_ofConstruct own used forwarded
  refine ⟨entry.parameters, ?_, contained, ?_⟩
  · rw [← named]
    exact get?_of_mem derivation.nodup_names listed
  · intro other otherMember otherNamed
    rw [List.inj_on_of_nodup_map (Parameter.nodup_ofConstruct own) otherMember
      contained otherNamed]

/-- The caller comes first, and the call stands in a loop; the attribute is not
in the case of the parameter. -/
theorem forwarded_type_loop :
    let files : List TemplateFile :=
      [⟨"page.html",
          "<p _component=\"Page\"><u _for=\"x of xs []T\">" ++
          "<card ON=\"\x7b\x7b loud \x7d\x7d\"/></u></p>"⟩,
        ⟨"card.html", "<p _component=\"Card\"><b _if=\"on\"/></p>"⟩]
    ∃ catalog events signatures own,
      Catalog.parse files = .ok (catalog, events) ∧
      ofCatalog catalog = .ok signatures ∧
      ¬ Relation.TransGen catalog.Calls "Card" "Page" ∧
      signatures.get? "Card" = some [⟨"on", "bool"⟩] ∧
      signatures.get? "Page" = some own ∧
      ⟨"loud", "bool"⟩ ∈ own := by
  intro files
  let marker : Marker :=
    .interpolation ⟨"loud", "\x7b\x7b loud \x7d\x7d", ⟨53, 63⟩, .tag⟩
  let argument : Argument := ⟨"ON", .expression marker, ⟨49, 64⟩⟩
  have shape : (Catalog.parse files).map (fun result =>
      (result.1.components.any (fun page => page.name = "Page" ∧
          (page.root.lineages []).any fun lineage =>
            lineage.2.kind = .placeholder "Card" [argument] ∧
              ∀ outer ∈ lineage.1, outer.kind.item? ≠ some "loud"),
        result.1.components.all
          (fun card => card.name = "Card" → card.root.targets = []),
        (ofCatalog result.1).map fun signatures => signatures.get? "Card")) =
      .ok (true, true, .ok (some [⟨"on", "bool"⟩])) := by decide +kernel
  obtain ⟨⟨catalog, events⟩, parsed, shape⟩ := Except.map_eq_ok.mp shape
  simp only [Prod.mk.injEq, List.any_eq_true, List.all_eq_true,
    decide_eq_true_eq] at shape
  obtain ⟨⟨page, member, pageNamed, ⟨around, placeholder⟩, placed, kind,
      unbound⟩, silent, known⟩ :=
    shape
  obtain ⟨signatures, derived, known⟩ := Except.map_eq_ok.mp known
  have acyclic : ¬ Relation.TransGen catalog.Calls "Card" page.name := by
    intro leads
    obtain ⟨_, ⟨card, listed, named, calls⟩, _⟩ :=
      Relation.TransGen.head'_iff.mp leads
    have target := List.mem_filterMap.mpr calls
    rw [show card.root.walk.filterMap (fun inner => inner.kind.target?) = []
      from
      silent card listed named] at target
    cases target
  have bound : Parameter.find? [⟨"on", "bool"⟩] argument.name =
      some ⟨"on", "bool"⟩ := by
    decide +kernel
  obtain ⟨own, signature, loud, _⟩ :=
    forwarded_type parsed derived member placed kind acyclic
    (List.mem_singleton.mpr rfl) rfl (.interpolation rfl) unbound known bound
  rw [pageNamed] at acyclic signature
  exact ⟨catalog, events, signatures, own, parsed, derived, acyclic, known,
    signature, loud⟩

end Signatures

end Stencil
