import Mathlib.Data.List.Perm.Basic
import Stencil.Proofs.Linking

theorem List.Forall₂.of_common {α β γ : Type} {R : α → β → Prop}
    {S : α → γ → Prop} {T : β → γ → Prop} {items : List α} {left : List β}
    {right : List γ} (first : List.Forall₂ R items left)
    (second : List.Forall₂ S items right)
    (both : ∀ item one other, R item one → S item other → T one other) :
    List.Forall₂ T left right := by
  induction first generalizing right with
  | nil =>
      cases second
      exact .nil
  | cons here _ induction =>
      cases second with
      | cons there rest => exact .cons (both _ _ _ here there) (induction rest)

namespace Stencil

/-! A placeholder can be linked just where its attributes and slots give each
parameter one value that fits, and then the order in which they stand does not
matter. -/

namespace Supply

variable {parameters : List Parameter} {supplies others : List Supply}

def destinations (parameters : List Parameter) (supplies : List Supply) :
    List Parameter :=
  supplies.filterMap fun supply => Parameter.find? parameters supply.name

def ignored (parameters : List Parameter) (supplies : List Supply) :
    List Supply :=
  supplies.filter fun supply => (Parameter.find? parameters supply.name).isNone

def warning (target : String) : Supply → Event
  | .ofArgument argument => .ignoredArgument target argument.name
  | .ofSlot slot => .ignoredSlot target slot.name

def slotName? : Supply → Option String
  | .ofArgument _ => none
  | .ofSlot slot => some slot.name

def Gives (parameters : List Parameter) (supply : Supply) (text : String) :
    Prop :=
  ∃ parameter, Parameter.find? parameters supply.name = some parameter ∧
    supply.expression parameter = .ok text

/-- Every attribute that goes to a parameter fits it, and every parameter has
one supply. -/
structure Suffice (parameters : List Parameter) (supplies : List Supply) :
    Prop where
  converts : ∀ argument, .ofArgument argument ∈ supplies → ∀ parameter,
    Parameter.find? parameters argument.name = some parameter →
      ∃ text, parameter.convert argument.value = .ok text
  single : (destinations parameters supplies).Nodup
  complete : parameters ⊆ destinations parameters supplies

theorem Suffice.perm (suffice : Suffice parameters supplies)
    (same : supplies.Perm others) :
    Suffice parameters others := by
  have destined := same.filterMap fun supply =>
    Parameter.find? parameters supply.name
  exact ⟨fun argument member => suffice.converts argument
    (same.mem_iff.mpr member),
    destined.nodup_iff.mp suffice.single,
    List.Subset.trans suffice.complete fun _ => destined.mem_iff.mp⟩

theorem Suffice.exists_expression (suffice : Suffice parameters supplies)
    {supply : Supply} (member : supply ∈ supplies) {parameter : Parameter}
    (found : Parameter.find? parameters supply.name = some parameter) :
    ∃ text, supply.expression parameter = .ok text := by
  cases supply with
  | ofArgument argument =>
      exact suffice.converts argument member parameter found
  | ofSlot slot => exact ⟨slot.expression, rfl⟩

theorem forall₂_destinations (parameters : List Parameter)
    (supplies : List Supply) :
    List.Forall₂ (fun supply parameter =>
      Parameter.find? parameters supply.name = some parameter)
      (supplies.filter fun supply =>
        (Parameter.find? parameters supply.name).isSome)
      (destinations parameters supplies) := by
  unfold destinations
  induction supplies with
  | nil => exact .nil
  | cons supply rest induction =>
      cases found : Parameter.find? parameters supply.name with
      | none => simpa [found] using induction
      | some parameter => simpa [found] using induction

theorem destinations_subset :
    destinations parameters supplies ⊆ parameters := by
  intro parameter member
  obtain ⟨supply, _, found⟩ := List.mem_filterMap.mp member
  exact Parameter.mem_of_find? found

/-- The supplies that go to a parameter can be put in the order of the
parameters. -/
theorem Suffice.exists_sources (suffice : Suffice parameters supplies)
    (distinct : (parameters.map Parameter.name).Nodup) :
    ∃ sources, sources.Perm (supplies.filter fun supply =>
        (Parameter.find? parameters supply.name).isSome) ∧
      List.Forall₂ (fun parameter supply =>
        supply ∈ supplies ∧
          Parameter.find? parameters supply.name = some parameter)
        parameters sources := by
  have destined : parameters.Perm (destinations parameters supplies) := by
    rw [List.perm_ext_iff_of_nodup distinct.of_map suffice.single]
    exact fun parameter => ⟨fun listed => suffice.complete listed,
      fun member => destinations_subset member⟩
  have paired := (List.forall₂_and_left _ _).mpr
    ⟨fun _ member => List.mem_of_mem_filter member,
      forall₂_destinations parameters supplies⟩
  obtain ⟨sources, related, permuted⟩ :=
    List.perm_comp_forall₂ destined paired.flip
  exact ⟨sources, permuted, related⟩

theorem filter_append_ignored_perm (parameters : List Parameter)
    (supplies : List Supply) :
    (supplies.filter (fun supply =>
      (Parameter.find? parameters supply.name).isSome) ++
      ignored parameters supplies).Perm supplies := by
  unfold ignored
  simp only [← Option.not_isSome]
  exact List.filter_append_perm _ _

theorem slotNames_all {arguments : List Argument} {slots : List SlotArgument} :
    ((all arguments slots).filter fun supply =>
        (Parameter.find? parameters supply.name).isSome).filterMap slotName? =
      (slots.filter fun slot =>
        (Parameter.find? parameters slot.name).isSome).map
        SlotArgument.name := by
  rw [all, List.filter_append, List.filterMap_append, List.filter_map,
    List.filter_map, List.filterMap_map, List.filterMap_map]
  have none : slotName? ∘ ofArgument = fun _ => Option.none := rfl
  have some : slotName? ∘ ofSlot = Option.some ∘ SlotArgument.name := rfl
  rw [none, some, List.filterMap_eq_map]
  simp [Function.comp_def, name]

theorem all_perm {arguments otherArguments : List Argument}
    {slots otherSlots : List SlotArgument}
    (permuted : arguments.Perm otherArguments)
    (slotsPermuted : slots.Perm otherSlots) :
    (all arguments slots).Perm (all otherArguments otherSlots) :=
  (permuted.map _).append (slotsPermuted.map _)

end Supply

namespace Parameter.Receives

variable {parameters : List Parameter} {supplies others : List Supply}
  {parameter : Parameter} {text other : String}

theorem perm (receives : parameter.Receives parameters supplies text)
    (same : supplies.Perm others) :
    parameter.Receives parameters others text := by
  obtain ⟨supply, only, expressed⟩ := receives
  refine ⟨supply, ?_, expressed⟩
  have filtered := same.filter fun supply => find? parameters supply.name =
    some parameter
  rw [only] at filtered
  exact List.singleton_perm.mp filtered |>.symm

theorem unique (receives : parameter.Receives parameters supplies text)
    (again : parameter.Receives parameters supplies other) : text = other := by
  obtain ⟨supply, only, expressed⟩ := receives
  obtain ⟨_, same, otherExpressed⟩ := again
  obtain rfl := List.singleton_inj.mp (only.symm.trans same)
  exact Except.ok.inj (expressed.symm.trans otherExpressed)

theorem gives (receives : parameter.Receives parameters supplies text)
    {supply : Supply} (member : supply ∈ supplies)
    (found : find? parameters supply.name = some parameter) :
    supply.Gives parameters text := by
  obtain ⟨source, only, expressed⟩ := receives
  have passes : supply ∈ supplies.filter fun supply =>
      find? parameters supply.name = some parameter :=
    List.mem_filter.mpr ⟨member, decide_eq_true found⟩
  rw [only, List.mem_singleton] at passes
  exact ⟨parameter, found, passes ▸ expressed⟩

end Parameter.Receives

namespace Call

namespace Draft

variable {target html : String} {parameters : List Parameter}
  {supplies : List Supply} {draft next : Draft} {supply : Supply}

/-- A draft lists the slots that are bound and warns of every supply that is
not. -/
structure Records (target : String) (parameters : List Parameter)
    (supplies : List Supply) (draft : Draft) : Prop where
  used : draft.usedSlots = (supplies.filter fun supply =>
    (Parameter.find? parameters supply.name).isSome).filterMap Supply.slotName?
  warned : draft.events = (Supply.ignored parameters supplies).map
      (Supply.warning target)

theorem Records.empty : Records target parameters [] Draft.empty :=
  ⟨rfl, rfl⟩

theorem Records.add (records : Records target parameters supplies draft)
    (added : draft.add target html parameters supply = .ok next) :
    Records target parameters (supplies ++ [supply]) next := by
  cases supply with
  | ofArgument argument =>
      rw [Draft.add, addArgument] at added
      split at added
      · rename_i missing
        obtain rfl := Except.ok.inj added
        exact ⟨by simp [Supply.name, missing, records.used],
          by
          simp [Supply.name, missing, records.warned, Supply.ignored,
            Supply.warning]⟩
      · rename_i parameter found
        split at added
        · cases added
        · obtain ⟨_, rfl⟩ := bind_ok added
          exact ⟨by simp [Supply.name, found, records.used, Supply.slotName?],
            by simp [Supply.name, found, records.warned, Supply.ignored]⟩
  | ofSlot slot =>
      rw [Draft.add, addSlot] at added
      split at added
      · rename_i missing
        obtain rfl := Except.ok.inj added
        exact ⟨by simp [Supply.name, missing, records.used],
          by
          simp [Supply.name, missing, records.warned, Supply.ignored,
            Supply.warning]⟩
      · rename_i parameter found
        obtain ⟨middle, bound, rfl⟩ := Except.map_eq_ok.mp added
        obtain ⟨_, rfl⟩ := bind_ok bound
        exact ⟨by simp [Supply.name, found, records.used, Supply.slotName?],
          by simp [Supply.name, found, records.warned, Supply.ignored]⟩

theorem Records.foldlM {more : List Supply}
    (records : Records target parameters supplies draft)
    (ran : more.foldlM (Draft.add target html parameters) draft = .ok next) :
    Records target parameters (supplies ++ more) next :=
  invariant_foldlM (fun records added => records.add added) records ran

theorem Holds.names (holds : Holds parameters supplies draft) :
    draft.bindings.map Binding.parameter =
      (Supply.destinations parameters supplies).map Parameter.name := by
  have paired := (Supply.forall₂_destinations parameters supplies).of_common
    holds.bound
    (T := fun parameter binding => binding.parameter = parameter.name) (by
      rintro supply parameter binding found ⟨other, same, named, _⟩
      obtain rfl := Option.some.inj (found.symm.trans same)
      exact named)
  exact paired.map_eq fun _ _ => Eq.symm

theorem bind_of_fresh {name text : String}
    (fresh : name ∉ draft.bindings.map Binding.parameter) :
    draft.bind target html name text =
      .ok { draft with bindings := draft.bindings ++ [⟨name, text⟩] } := by
  unfold bind
  rw [if_neg]
  simpa using fresh

theorem exists_add
    (fits : ∀ parameter,
      Parameter.find? parameters supply.name = some parameter →
      (∃ text, supply.expression parameter = .ok text) ∧
        parameter.name ∉ draft.bindings.map Binding.parameter) :
    ∃ next, draft.add target html parameters supply = .ok next := by
  cases supply with
  | ofArgument argument =>
      rw [Draft.add, addArgument]
      cases found : Parameter.find? parameters argument.name with
      | none => exact ⟨_, rfl⟩
      | some parameter =>
          obtain ⟨⟨text, converted⟩, fresh⟩ := fits parameter found
          have converts : parameter.convert argument.value = .ok text :=
            converted
          exact ⟨_, by simp only [converts]; exact bind_of_fresh fresh⟩
  | ofSlot slot =>
      rw [Draft.add, addSlot]
      cases found : Parameter.find? parameters slot.name with
      | none => exact ⟨_, rfl⟩
      | some parameter =>
          obtain ⟨_, fresh⟩ := fits parameter found
          exact ⟨_, by simp only [bind_of_fresh fresh]; rfl⟩

theorem Holds.exists_foldlM {more : List Supply}
    (holds : Holds parameters supplies draft)
    (distinct : (parameters.map Parameter.name).Nodup)
    (converts : ∀ supply ∈ more, ∀ parameter,
      Parameter.find? parameters supply.name = some parameter →
        ∃ text, supply.expression parameter = .ok text)
    (single : (Supply.destinations parameters (supplies ++ more)).Nodup) :
    ∃ next, more.foldlM (Draft.add target html parameters) draft =
      .ok next := by
  induction more generalizing supplies draft with
  | nil => exact ⟨draft, rfl⟩
  | cons supply rest induction =>
      have fits : ∀ parameter,
          Parameter.find? parameters supply.name = some parameter →
          (∃ text, supply.expression parameter = .ok text) ∧
            parameter.name ∉ draft.bindings.map Binding.parameter := by
        intro parameter found
        refine ⟨converts supply (by simp) parameter found, ?_⟩
        rw [holds.names]
        intro taken
        obtain ⟨other, earlier, same⟩ := List.mem_map.mp taken
        obtain rfl := List.inj_on_of_nodup_map distinct
          (Supply.destinations_subset earlier)
          (Parameter.mem_of_find? found) same
        rw [Supply.destinations, List.filterMap_append] at single
        exact List.disjoint_of_nodup_append single earlier
          (List.mem_filterMap.mpr ⟨supply, by simp, found⟩)
      obtain ⟨middle, step⟩ :
          ∃ next, draft.add target html parameters supply = .ok next :=
        exists_add fits
      obtain ⟨next, ran⟩ := induction (holds.add step)
        (fun supply member => converts supply (List.mem_cons_of_mem _ member))
        (by rwa [List.append_assoc, List.singleton_append])
      exact ⟨next, by rw [List.foldlM_cons, step]; exact ran⟩

theorem Holds.suffice (holds : Holds parameters supplies draft)
    (distinct : (parameters.map Parameter.name).Nodup) {texts : List String}
    (mapped : parameters.mapM (draft.argument target html) = .ok texts) :
    Supply.Suffice parameters supplies := by
  refine ⟨?_, ?_, ?_⟩
  · intro argument member parameter found
    obtain ⟨binding, _, other, same, _, expressed⟩ :=
      holds.bound.exists_of_mem_left
      (List.mem_filter.mpr
        ⟨member, Option.isSome_iff_exists.mpr ⟨parameter, found⟩⟩)
    obtain rfl := Option.some.inj (found.symm.trans same)
    exact ⟨binding.expression, expressed⟩
  · have apart := holds.apart
    rw [holds.names] at apart
    exact apart.of_map
  · intro parameter listed
    obtain ⟨text, _, given⟩ :=
      (Except.forall₂_of_mapM mapped).exists_of_mem_left listed
    obtain ⟨supply, only, _⟩ := holds.receives distinct listed given
    have chosen := only ▸ List.mem_singleton_self supply
    obtain ⟨member, found⟩ := List.mem_filter.mp chosen
    exact List.mem_filterMap.mpr ⟨supply, member, of_decide_eq_true found⟩

theorem Holds.exists_argument (holds : Holds parameters supplies draft)
    {parameter : Parameter}
    (destined : parameter ∈ Supply.destinations parameters supplies) :
    ∃ text, draft.argument target html parameter = .ok text := by
  have named : parameter.name ∈ draft.bindings.map Binding.parameter := by
    rw [holds.names]
    exact List.mem_map_of_mem destined
  unfold argument
  split
  · rename_i missing
    obtain ⟨binding, member, same⟩ := List.mem_map.mp named
    exact absurd (beq_iff_eq.mpr same)
      (List.find?_eq_none.mp missing binding member)
  · exact ⟨_, rfl⟩

end Draft

/-- Every attribute and every slot is the source of one argument of the call or
is warned of once, and the slots among the sources are listed. -/
structure Accounts (target : String) (parameters : List Parameter)
    (arguments : List Argument) (slots : List SlotArgument)
    (linked : LinkedCall) : Prop where
  called : linked.call.target = target
  sources : ∃ sources,
    (sources ++ Supply.ignored parameters (Supply.all arguments slots)).Perm
      (Supply.all arguments slots) ∧
    List.Forall₂ (fun parameter supply =>
      Parameter.find? parameters (Supply.name supply) =
        some parameter) parameters sources ∧
    List.Forall₂ (Supply.Gives parameters) sources linked.call.arguments
  warned : linked.events =
    (Supply.ignored parameters (Supply.all arguments slots)).map
      (Supply.warning target)
  used : linked.usedSlots = (slots.filter fun slot =>
    (Parameter.find? parameters slot.name).isSome).map SlotArgument.name

section Links

variable {signatures : Signatures} {target html : String}
  {parameters : List Parameter} {arguments : List Argument}
  {slots : List SlotArgument} {linked : LinkedCall}

theorem exists_link_iff (known : signatures.get? target = some parameters)
    (distinct : (parameters.map Parameter.name).Nodup) :
    (∃ linked, link signatures target html arguments slots = .ok linked) ↔
      Supply.Suffice parameters (Supply.all arguments slots) := by
  constructor
  · rintro ⟨linked, links⟩
    obtain ⟨draft, ran, mapped, _⟩ := (link_eq_ok known).mp links
    exact (Draft.Holds.empty.foldlM ran).suffice distinct mapped
  · intro suffice
    obtain ⟨draft, ran⟩ : ∃ draft, (Supply.all arguments slots).foldlM
        (Draft.add target html parameters) Draft.empty = .ok draft :=
      Draft.Holds.empty.exists_foldlM distinct
        (fun _ member _ found => suffice.exists_expression member found)
          suffice.single
    cases mapped : parameters.mapM (draft.argument target html) with
    | ok texts =>
        exact ⟨⟨⟨target, texts⟩, _, _⟩,
          (link_eq_ok known).mpr ⟨draft, ran, mapped, rfl⟩⟩
    | error problem =>
        obtain ⟨before, parameter, after, split, _, failed⟩ :=
          Except.exists_of_mapM_error mapped
        obtain ⟨text, given⟩ :
            ∃ text, draft.argument target html parameter = .ok text :=
          (Draft.Holds.empty.foldlM ran).exists_argument
            (suffice.complete (by simp [split]))
        rw [given] at failed
        cases failed

theorem link_accounts (known : signatures.get? target = some parameters)
    (distinct : (parameters.map Parameter.name).Nodup)
    (links : link signatures target html arguments slots = .ok linked) :
    Accounts target parameters arguments slots linked := by
  have suffice := (exists_link_iff known distinct).mp ⟨linked, links⟩
  have receives := link_receives known distinct links
  obtain ⟨draft, ran, _, same⟩ := (link_eq_ok known).mp links
  have records : Draft.Records target parameters (Supply.all arguments slots)
      draft :=
    Draft.Records.empty.foldlM ran
  obtain ⟨sources, permuted, destined⟩ := suffice.exists_sources distinct
  refine ⟨by rw [same], ⟨sources, ?_, destined.imp fun _ _ => And.right,
    ?_⟩, ?_, ?_⟩
  · exact (permuted.append_right _).trans (Supply.filter_append_ignored_perm ..)
  · exact destined.of_common receives fun parameter supply text goes received =>
      received.gives goes.1 goes.2
  · rw [same]
    exact records.warned
  · rw [same]
    exact records.used.trans Supply.slotNames_all

theorem link_perm (known : signatures.get? target = some parameters)
    (distinct : (parameters.map Parameter.name).Nodup)
    {otherArguments : List Argument} {otherSlots : List SlotArgument}
    {other : LinkedCall}
    (permuted : (Supply.all arguments slots).Perm
      (Supply.all otherArguments otherSlots))
    (links : link signatures target html arguments slots = .ok linked)
    (again : link signatures target html otherArguments otherSlots =
      .ok other) :
    other.call = linked.call := by
  have received := (link_receives known distinct links).imp fun _ _ received =>
    received.perm permuted
  have texts : other.call.arguments = linked.call.arguments :=
    List.right_unique_forall₂' (fun _ _ _ one two => one.unique two)
      (link_receives known distinct again) received
  obtain ⟨_, _, _, same⟩ := (link_eq_ok known).mp links
  obtain ⟨_, _, _, otherSame⟩ := (link_eq_ok known).mp again
  rw [same, otherSame, texts]

end Links

/-- A call can be linked if and only if what the placeholder supplies suffices,
it accounts for all of that, and any other order of the attributes and of the
slots links to the same call. -/
theorem link_iff_suffice_any_order {signatures : Signatures} {target : String}
    {parameters : List Parameter}
    (known : signatures.get? target = some parameters)
    (distinct : (parameters.map Parameter.name).Nodup) (html : String)
    (arguments : List Argument) (slots : List SlotArgument) :
    ((∃ linked, link signatures target html arguments slots = .ok linked) ↔
      Supply.Suffice parameters (Supply.all arguments slots)) ∧
    (∀ linked, link signatures target html arguments slots = .ok linked →
      Accounts target parameters arguments slots linked) ∧
    ∀ otherArguments otherSlots,
      arguments.Perm otherArguments → slots.Perm otherSlots →
      ((∃ other, link signatures target html otherArguments otherSlots =
        .ok other) ↔
        ∃ linked, link signatures target html arguments slots = .ok linked) ∧
      ∀ linked other, link signatures target html arguments slots = .ok linked →
        link signatures target html otherArguments otherSlots = .ok other →
          other.call.text = linked.call.text := by
  refine ⟨exists_link_iff known distinct, fun linked =>
    link_accounts known distinct, ?_⟩
  intro otherArguments otherSlots permuted slotsPermuted
  have same := Supply.all_perm permuted slotsPermuted
  constructor
  · rw [exists_link_iff known distinct, exists_link_iff known distinct]
    exact ⟨fun suffice => suffice.perm same.symm, fun suffice =>
      suffice.perm same⟩
  · intro linked other links again
    rw [link_perm known distinct same links again]

theorem link_iff_suffice_any_order_cased :
    let parameters : List Parameter :=
      [⟨"Title", "string"⟩, ⟨"title", "bool"⟩, ⟨"body", "string"⟩]
    let signatures : Signatures := ⟨[⟨"Card", parameters⟩]⟩
    let arguments : List Argument :=
      [⟨"title", .empty, ⟨6, 11⟩⟩, ⟨"extra", .empty, ⟨12, 17⟩⟩,
      ⟨"TITLE", .literal .string "hi", ⟨18, 28⟩⟩]
    let slots : List SlotArgument :=
      [⟨"Body", "gtmlSlot(slot2)"⟩, ⟨"foot", "gtmlSlot(slot3)"⟩]
    signatures.get? "Card" = some parameters ∧
      (parameters.map Parameter.name).Nodup ∧
      Supply.Suffice parameters (Supply.all arguments slots) ∧
      ∃ linked other, link signatures "Card" "<card>" arguments slots =
        .ok linked ∧
        link signatures "Card" "<card>" arguments.reverse slots.reverse =
          .ok other ∧
        Accounts "Card" parameters arguments slots linked ∧
        linked.call.text = "Card(\"hi\", true, gtmlSlot(slot2))" ∧
        other.call.text = linked.call.text := by
  intro parameters signatures arguments slots
  have known : signatures.get? "Card" = some parameters := by decide
  have distinct : (parameters.map Parameter.name).Nodup := by decide
  have shape : (link signatures "Card" "<card>" arguments slots).map
      (fun linked => linked.call.text) =
        .ok "Card(\"hi\", true, gtmlSlot(slot2))" := by
    decide +kernel
  obtain ⟨linked, links, text⟩ := Except.map_eq_ok.mp shape
  obtain ⟨exactly, accounts, order⟩ :=
    link_iff_suffice_any_order known distinct "<card>" arguments slots
  obtain ⟨alike, same⟩ := order arguments.reverse slots.reverse
    (List.reverse_perm _).symm
    (List.reverse_perm _).symm
  obtain ⟨other, again⟩ := alike.mpr ⟨linked, links⟩
  exact ⟨known, distinct, exactly.mp ⟨linked, links⟩, linked, other, links,
    again,
    accounts linked links, text, same linked other links again⟩

end Call

end Stencil
