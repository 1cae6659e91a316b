import Stencil.Proofs.Resolution
import Stencil.Proofs.Series
import Stencil.Program

namespace Stencil

/-! A call gives to the parameters of the function that it calls, one by one as
the function's header lists them, what the placeholder supplies under their
names. -/

/-- What a placeholder hands over: an attribute or a slot. -/
inductive Supply where
  | ofArgument (argument : Argument)
  | ofSlot (slot : SlotArgument)

namespace Supply

def name : Supply → String
  | .ofArgument argument => argument.name
  | .ofSlot slot => slot.name

def expression (parameter : Parameter) :
    Supply → Except GenerationError.Misfit String
  | .ofArgument argument => parameter.convert argument.value
  | .ofSlot slot => .ok slot.expression

def all (arguments : List Argument) (slots : List SlotArgument) : List Supply :=
  arguments.map .ofArgument ++ slots.map .ofSlot

/-- The supply goes to a parameter, and the binding says so. -/
def Binds (parameters : List Parameter) (supply : Supply) (binding : Binding) :
    Prop :=
  ∃ parameter, Parameter.find? parameters supply.name = some parameter ∧
    binding.parameter = parameter.name ∧
    supply.expression parameter = .ok binding.expression

end Supply

namespace Parameter

def Receives (parameters : List Parameter) (supplies : List Supply)
    (parameter : Parameter) (expression : String) : Prop :=
  ∃ supply,
    supplies.filter (fun supply =>
      find? parameters supply.name = some parameter) = [supply] ∧
    supply.expression parameter = .ok expression

theorem mem_of_find? {parameters : List Parameter} {key : String}
    {parameter : Parameter} (found : find? parameters key = some parameter) :
    parameter ∈ parameters := by
  unfold find? at found
  split at found
  · rename_i exactly
    obtain rfl := Option.some.inj found
    exact List.mem_of_find?_eq_some exactly
  · exact List.mem_of_find?_eq_some found

end Parameter

namespace Call

namespace Draft

variable {target html : String} {parameters : List Parameter}
  {supplies : List Supply} {draft next : Draft}

def add (target html : String) (parameters : List Parameter) (draft : Draft) :
    Supply → Except GenerationError Draft
  | .ofArgument argument => draft.addArgument target html parameters argument
  | .ofSlot slot => draft.addSlot target html parameters slot

/-- The bindings of a draft are those of the supplies that go to a parameter,
each to its own, and no slot among them is left out. -/
structure Holds (parameters : List Parameter) (supplies : List Supply)
    (draft : Draft) : Prop where
  bound : List.Forall₂ (Supply.Binds parameters)
    (supplies.filter fun supply =>
      (Parameter.find? parameters supply.name).isSome) draft.bindings
  apart : (draft.bindings.map Binding.parameter).Nodup
  used : ∀ slot, .ofSlot slot ∈ supplies →
      (Parameter.find? parameters slot.name).isSome →
    slot.name ∈ draft.usedSlots

theorem bind_ok {parameter expression : String}
    (bound : draft.bind target html parameter expression = .ok next) :
    parameter ∉ draft.bindings.map Binding.parameter ∧
      next = { draft with bindings :=
        draft.bindings ++ [⟨parameter, expression⟩] } := by
  unfold bind at bound
  split at bound
  · cases bound
  · rename_i fresh
    exact ⟨by simpa using fresh, (Except.ok.inj bound).symm⟩

theorem add_ok {supply : Supply}
    (added : draft.add target html parameters supply = .ok next) :
    (∀ slot, supply = .ofSlot slot →
      (Parameter.find? parameters slot.name).isSome →
        slot.name ∈ next.usedSlots) ∧
      draft.usedSlots ⊆ next.usedSlots ∧
      ((Parameter.find? parameters supply.name = none ∧
        next.bindings = draft.bindings) ∨
        ∃ binding, supply.Binds parameters binding ∧
          binding.parameter ∉ draft.bindings.map Binding.parameter ∧
          next.bindings = draft.bindings ++ [binding]) := by
  cases supply with
  | ofArgument argument =>
      rw [add, addArgument] at added
      refine ⟨nofun, ?_⟩
      split at added
      · rename_i missing
        obtain rfl := Except.ok.inj added
        exact ⟨List.Subset.refl _, .inl ⟨missing, rfl⟩⟩
      · rename_i parameter found
        split at added
        · cases added
        · rename_i expression converted
          obtain ⟨fresh, rfl⟩ := bind_ok added
          exact ⟨List.Subset.refl _, .inr ⟨⟨parameter.name, expression⟩,
            ⟨parameter, found, rfl, converted⟩, fresh, rfl⟩⟩
  | ofSlot slot =>
      rw [add, addSlot] at added
      split at added
      · rename_i missing
        obtain rfl := Except.ok.inj added
        refine ⟨?_, List.Subset.refl _, .inl ⟨missing, rfl⟩⟩
        rintro _ ⟨⟩ found
        simp [missing] at found
      · rename_i parameter found
        obtain ⟨middle, bound, rfl⟩ := Except.map_eq_ok.mp added
        obtain ⟨fresh, rfl⟩ := bind_ok bound
        refine ⟨?_, List.subset_append_left _ _,
          .inr ⟨⟨parameter.name, slot.expression⟩,
          ⟨parameter, found, rfl, rfl⟩, fresh, rfl⟩⟩
        rintro _ ⟨⟩ _
        exact List.mem_append_right _ (List.mem_singleton.mpr rfl)

theorem Holds.empty : Holds parameters [] Draft.empty :=
  ⟨.nil, List.nodup_nil, nofun⟩

theorem Holds.add {supply : Supply} (holds : Holds parameters supplies draft)
    (added : draft.add target html parameters supply = .ok next) :
    Holds parameters (supplies ++ [supply]) next := by
  obtain ⟨last, kept, cases⟩ := add_ok added
  have used : ∀ slot, .ofSlot slot ∈ supplies ++ [supply] →
      (Parameter.find? parameters slot.name).isSome →
      slot.name ∈ next.usedSlots := by
    intro slot member found
    rcases List.mem_append.mp member with earlier | here
    · exact kept (holds.used slot earlier found)
    · exact last slot (List.mem_singleton.mp here).symm found
  rcases cases with ⟨missing, same⟩ | ⟨binding, binds, fresh, bindings⟩
  · refine ⟨?_, same ▸ holds.apart, used⟩
    have drops : [supply].filter (fun supply =>
        (Parameter.find? parameters supply.name).isSome) = [] := by
          simp [missing]
    rw [same, List.filter_append, drops, List.append_nil]
    exact holds.bound
  · refine ⟨?_, ?_, used⟩
    · have passes : [supply].filter (fun supply =>
          (Parameter.find? parameters supply.name).isSome) = [supply] := by
        obtain ⟨parameter, found, _⟩ := binds
        simp [found]
      rw [bindings, List.filter_append, passes]
      exact List.rel_append holds.bound (.cons binds .nil)
    · rw [bindings, List.map_append, List.nodup_append]
      refine ⟨holds.apart, List.nodup_singleton _, ?_⟩
      rintro _ earlier _ last rfl
      rw [List.mem_singleton.mp last] at earlier
      exact fresh earlier

/-- What holds of the supplies added so far and stays so with one more holds
after a run. -/
theorem invariant_foldlM {P : List Supply → Draft → Prop}
    (step : ∀ {supplies draft supply next}, P supplies draft →
      draft.add target html parameters supply = .ok next →
      P (supplies ++ [supply]) next)
    {more : List Supply} (start : P supplies draft)
    (ran : more.foldlM (Draft.add target html parameters) draft = .ok next) :
    P (supplies ++ more) next := by
  induction more generalizing supplies draft with
  | nil =>
      obtain rfl := Except.pure_eq_ok.mp ran
      rwa [List.append_nil]
  | cons supply rest induction =>
      rw [List.foldlM_cons] at ran
      obtain ⟨middle, added, ran⟩ := Except.bind_eq_ok.mp ran
      have later := induction (step start added) ran
      rwa [List.append_assoc, List.singleton_append] at later

theorem Holds.foldlM {more : List Supply}
    (holds : Holds parameters supplies draft)
    (ran : more.foldlM (Draft.add target html parameters) draft = .ok next) :
    Holds parameters (supplies ++ more) next :=
  invariant_foldlM (fun holds added => holds.add added) holds ran

theorem Holds.receives (holds : Holds parameters supplies draft)
    (distinct : (parameters.map Parameter.name).Nodup) {parameter : Parameter}
    (listed : parameter ∈ parameters) {expression : String}
    (given : draft.argument target html parameter = .ok expression) :
    parameter.Receives parameters supplies expression := by
  unfold argument at given
  split at given
  · cases given
  · rename_i binding chosen
    obtain rfl := Except.ok.inj given
    have named : binding.parameter = parameter.name := by
      simpa using List.find?_some chosen
    have tests : ∀ supply binding, Supply.Binds parameters supply binding →
        (decide (Parameter.find? parameters supply.name = some parameter) =
          true ↔
          binding.parameter = parameter.name) := by
      rintro supply binding ⟨other, found, same, _⟩
      rw [decide_eq_true_iff, found, Option.some.injEq, same]
      exact ⟨congrArg _, List.inj_on_of_nodup_map distinct
        (Parameter.mem_of_find? found) listed⟩
    obtain ⟨supply, member, binds⟩ :=
      holds.bound.exists_of_mem_right (List.mem_of_find?_eq_some chosen)
    have passes := (tests supply binding binds).mpr named
    have only := holds.bound.filter_eq_singleton holds.apart tests member passes
    obtain ⟨other, found, _, converts⟩ := binds
    obtain rfl : other = parameter :=
      Option.some.inj (found.symm.trans (of_decide_eq_true passes))
    refine ⟨supply, ?_, converts⟩
    rw [← only, List.filter_filter]
    refine List.filter_congr fun supply _ => ?_
    cases Parameter.find? parameters supply.name with
    | none => simp
    | some found => simp

end Draft

section Links

variable {signatures : Signatures} {target html : String}
  {arguments : List Argument} {slots : List SlotArgument} {linked : LinkedCall}
  {parameters : List Parameter}

theorem link_eq_ok (known : signatures.get? target = some parameters) :
    link signatures target html arguments slots = .ok linked ↔
      ∃ draft, (Supply.all arguments slots).foldlM
        (Draft.add target html parameters) Draft.empty = .ok draft ∧
        parameters.mapM (draft.argument target html) =
          .ok linked.call.arguments ∧
        linked = ⟨⟨target, linked.call.arguments⟩, draft.usedSlots,
          draft.events⟩ := by
  unfold link
  rw [known, Supply.all, List.foldlM_append]
  simp only [List.foldlM_map, Except.bind_eq_ok, Except.pure_eq_ok]
  constructor
  · rintro ⟨attributes, first, draft, second, ordered, mapped, rfl⟩
    exact ⟨draft, ⟨attributes, first, second⟩, mapped, rfl⟩
  · rintro ⟨draft, ⟨attributes, first, second⟩, mapped, same⟩
    exact ⟨attributes, first, draft, second, _, mapped, same.symm⟩

theorem link_runs
    (links : link signatures target html arguments slots = .ok linked) :
    ∃ parameters draft, signatures.get? target = some parameters ∧
      (Supply.all arguments slots).foldlM (Draft.add target html parameters)
        Draft.empty = .ok draft ∧
      linked.call.target = target ∧ linked.usedSlots = draft.usedSlots ∧
      parameters.mapM (draft.argument target html) =
        .ok linked.call.arguments := by
  cases known : signatures.get? target with
  | none =>
      rw [link, known] at links
      cases links
  | some parameters =>
      obtain ⟨draft, ran, mapped, same⟩ := (link_eq_ok known).mp links
      exact ⟨parameters, draft, rfl, ran, by rw [same], by rw [same], mapped⟩

theorem link_ok
    (links : link signatures target html arguments slots = .ok linked) :
    ∃ parameters draft, signatures.get? target = some parameters ∧
      Draft.Holds parameters (Supply.all arguments slots) draft ∧
      linked.call.target = target ∧ linked.usedSlots = draft.usedSlots ∧
      parameters.mapM (draft.argument target html) =
        .ok linked.call.arguments := by
  obtain ⟨parameters, draft, known, ran, rest⟩ := link_runs links
  exact ⟨parameters, draft, known, Draft.Holds.empty.foldlM ran, rest⟩

theorem link_receives (known : signatures.get? target = some parameters)
    (distinct : (parameters.map Parameter.name).Nodup)
    (links : link signatures target html arguments slots = .ok linked) :
    List.Forall₂ (Parameter.Receives parameters (Supply.all arguments slots))
      parameters
      linked.call.arguments := by
  obtain ⟨draft, ran, mapped, _⟩ := (link_eq_ok known).mp links
  have given := (List.forall₂_and_left _ _).mpr
    ⟨fun _ member => member, Except.forall₂_of_mapM mapped⟩
  refine given.imp ?_
  rintro parameter text ⟨listed, expressed⟩
  exact (Draft.Holds.empty.foldlM ran).receives distinct listed expressed

end Links

end Call

namespace Construct

def slotArgument? (construct : Construct) : Option SlotArgument :=
  match construct.kind with
  | .slot name =>
      some
        ⟨name, "gtmlSlot(" ++ Declaration.nameOf construct.kind construct.id ++
          ")"⟩
  | _ => none

def supplies (construct : Construct) : List Supply :=
  match construct.kind with
  | .placeholder _ arguments =>
      Supply.all arguments (construct.children.filterMap slotArgument?)
  | _ => []

/-- The inner construct is a slot of the outer one, which calls a function that
has no parameter for it. -/
def Ignores (signatures : Signatures) (outer inner : Construct) : Prop :=
  ∃ target arguments name parameters,
    outer.kind = .placeholder target arguments ∧
    inner.kind = .slot name ∧ signatures.get? target = some parameters ∧
    Parameter.find? parameters name = none

end Construct

namespace Declaration

variable {signatures : Signatures}

theorem mem_forestListing {depth : Nat} {declarations : List Declaration}
    {entry : Nat × Declaration} : entry ∈ forestListing depth declarations ↔
      ∃ declaration ∈ declarations, entry ∈ declaration.listing depth := by
  induction declarations with
  | nil => simp [forestListing]
  | cons declaration rest induction => simp [forestListing, induction]

theorem listing_eq (declaration : Declaration) (depth : Nat) :
    declaration.listing depth =
      (depth, declaration) :: forestListing (depth + 1) declaration.inner := by
  cases declaration
  rw [listing]

theorem ofConstruct_ok {construct : Construct} {declaration : Declaration}
    (declared : ofConstruct signatures construct = .ok declaration) :
    ∃ content frame,
      List.Forall₂ (fun child inner => ofConstruct signatures child = .ok inner)
        construct.children declaration.inner ∧
      Declaration.content signatures construct declaration.builder
        declaration.inner = .ok content ∧
      Declaration.frame signatures construct.kind declaration.name
        construct.html = .ok frame ∧
      declaration.name = nameOf construct.kind construct.id ∧
      declaration.call = frame.call ∧
      declaration.lines = (frame.header ++ " \x7b") :: content.body ++
        ["\x7d"] := by
  obtain ⟨kind, id, span, html, runs, children⟩ := construct
  rw [ofConstruct] at declared
  obtain ⟨inner, below, declared⟩ := Except.bind_eq_ok.mp declared
  obtain ⟨content, written, declared⟩ := Except.bind_eq_ok.mp declared
  obtain ⟨frame, framed, declared⟩ := Except.bind_eq_ok.mp declared
  obtain rfl := Except.pure_eq_ok.mp declared
  exact ⟨content, frame, forall₂_of_ofConstructs below, written, framed, rfl,
    rfl, rfl⟩

theorem slots_eq {children : List Construct} {inner : List Declaration}
    (declared : List.Forall₂ (fun child declaration =>
      ofConstruct signatures child = .ok declaration) children inner) :
    (slots children inner).map (fun (name, slot) => ⟨name, slot.call⟩) =
      children.filterMap Construct.slotArgument? := by
  induction declared with
  | nil => rfl
  | @cons child declaration children inner here _ induction =>
      unfold slots at induction ⊢
      rw [List.zip_cons_cons, List.filterMap_cons, List.filterMap_cons]
      obtain ⟨_, frame, _, _, framed, named, call, _⟩ := ofConstruct_ok here
      cases kind : child.kind with
      | slot name =>
          rw [kind] at framed named
          obtain rfl := Except.ok.inj framed
          simp [Construct.slotArgument?, kind, call, ← named, induction]
      | component | loop | conditional | alternative | placeholder =>
          simp [Construct.slotArgument?, kind, induction]

theorem content_placeholder {construct : Construct} {builder : String}
    {inner : List Declaration} {content : Content} {target : String}
    {arguments : List Argument}
    (kind : construct.kind = .placeholder target arguments)
    (declared : List.Forall₂ (fun child declaration =>
      ofConstruct signatures child = .ok declaration) construct.children inner)
    (written : Declaration.content signatures construct builder inner =
      .ok content) :
    ∃ linked, Call.link signatures target construct.html arguments
        (construct.children.filterMap Construct.slotArgument?) = .ok linked ∧
      content.body = callBody linked (slots construct.children inner) := by
  unfold Declaration.content at written
  rw [kind] at written
  obtain ⟨linked, links, rfl⟩ := Except.map_eq_ok.mp written
  rw [slots_eq declared] at links
  exact ⟨linked, links, rfl⟩

theorem content_plain {construct : Construct} {builder : String}
    {inner : List Declaration} {content : Content}
    (plain : construct.kind.target? = none)
    (written : Declaration.content signatures construct builder inner =
      .ok content) :
    content.body = body builder inner content.segments := by
  unfold Declaration.content at written
  cases kind : construct.kind with
  | placeholder target arguments => simp [kind, Construct.Kind.target?] at plain
  | component | loop | conditional | alternative | slot =>
      rw [kind] at written
      obtain rfl := Except.ok.inj written
      rfl

theorem body_declares {builder : String} {inner : List Declaration}
    {segments : List Segment} {part : Declaration} (listed : part ∈ inner) :
    Emit.indentLines part.lines <:+: body builder inner segments := by
  have block : Emit.indentLines part.lines <:+:
      inner.flatMap fun declaration => Emit.indentLines declaration.lines :=
    List.infix_of_mem_flatten (List.mem_map.mpr ⟨part, listed, rfl⟩)
  refine block.trans ?_
  rw [body, List.append_assoc]
  exact List.infix_append [_] _ _

theorem callBody_declares {linked : LinkedCall}
    {slots : List (String × Declaration)} {name : String} {slot : Declaration}
    (listed : (name, slot) ∈ slots) (used : name ∈ linked.usedSlots) :
    Emit.indentLines slot.lines <:+: callBody linked slots := by
  have chosen : (name, slot) ∈ slots.filter fun (name, _) =>
      linked.usedSlots.contains name :=
    List.mem_filter.mpr ⟨listed, List.contains_iff_mem.mpr used⟩
  have block : Emit.indentLines slot.lines <:+:
      (slots.filter fun (name, _) => linked.usedSlots.contains name).flatMap
        fun (_, slot) => Emit.indentLines slot.lines :=
    List.infix_of_mem_flatten (List.mem_map.mpr ⟨(name, slot), chosen, rfl⟩)
  exact block.trans (List.prefix_append _ _).isInfix

theorem lines_child {construct child : Construct} {whole part : Declaration}
    (declared : ofConstruct signatures construct = .ok whole)
    (pair : (child, part) ∈ construct.children.zip whole.inner)
    (isSlot : construct.kind.target? ≠ none → child.kind.isSlot) :
    construct.Ignores signatures child ∨
    Emit.indentLines part.lines <:+: whole.lines := by
  obtain ⟨content, frame, below, written, _, _, _, lines⟩ :=
    ofConstruct_ok declared
  obtain ⟨inside, listed⟩ := List.of_mem_zip pair
  have framed : content.body <:+: whole.lines := by
    rw [lines]
    exact List.infix_append [_] _ _
  cases kind : construct.kind with
  | placeholder target arguments =>
      obtain ⟨linked, links, body⟩ := content_placeholder kind below written
      obtain ⟨parameters, draft, known, holds, _, used, _⟩ := Call.link_ok links
      obtain ⟨name, slot⟩ : ∃ name, child.kind = .slot name :=
        Construct.Kind.isSlot_iff.mp
          (isSlot (by simp [kind, Construct.Kind.target?]))
      cases found : Parameter.find? parameters name with
      | none =>
          exact .inl ⟨target, arguments, name, parameters, kind, slot, known,
            found⟩
      | some parameter =>
          have supplied : .ofSlot ⟨name, _⟩ ∈ Supply.all arguments
              (construct.children.filterMap Construct.slotArgument?) :=
            List.mem_append_right _ (List.mem_map_of_mem
              (List.mem_filterMap.mpr
                ⟨child, inside, by rw [Construct.slotArgument?, slot]⟩))
          have passed : name ∈ linked.usedSlots := by
            rw [used]
            exact holds.used _ supplied (by simp [found])
          have member : (name, part) ∈ slots construct.children whole.inner :=
            List.mem_filterMap.mpr ⟨(child, part), pair, by simp [slot]⟩
          rw [body] at framed
          exact .inr ((callBody_declares member passed).trans framed)
  | component | loop | conditional | alternative | slot =>
      rw [content_plain (by simp [kind, Construct.Kind.target?]) written]
        at framed
      exact .inr ((body_declares listed).trans framed)

/-- The lines of the part stand, that many tabs further in, among those of the
whole, unless the construct is inside a slot that its call has no use for. -/
def Printed (signatures : Signatures) (root construct : Construct)
    (whole part : Declaration) (depth : Nat) : Prop :=
  (∃ outer ∈ root.walk, ∃ slot ∈ outer.children, construct ∈ slot.walk ∧
    outer.Ignores signatures slot) ∨
    Emit.indentLines^[depth] part.lines <:+: whole.lines

theorem exists_listed {construct : Construct} (root : Construct)
    (inside : construct ∈ root.walk)
    (onlySlots : ∀ outer ∈ root.walk, outer.kind.target? ≠ none →
      ∀ child ∈ outer.children, child.kind.isSlot) {whole : Declaration}
    (declared : ofConstruct signatures root = .ok whole) :
    ∃ depth part, ofConstruct signatures construct = .ok part ∧
      (∀ base, (base + depth, part) ∈ whole.listing base) ∧
      Printed signatures root construct whole part depth := by
  induction root, inside using Construct.walk_induction generalizing whole with
  | here =>
      refine ⟨0, whole, declared, ?_, .inr (List.infix_refl _)⟩
      intro base
      rw [listing_eq]
      exact List.mem_cons_self ..
  | pass root child inside below induction =>
      obtain ⟨_, _, made, _⟩ := ofConstruct_ok declared
      have children : (root.children.zip whole.inner).map Prod.fst =
          root.children :=
        List.map_fst_zip (Nat.le_of_eq made.length_eq)
      obtain ⟨⟨_, middle⟩, pair, rfl⟩ := List.mem_map.mp (children ▸ inside)
      obtain ⟨depth, part, partDeclared, listed, printed⟩ := induction
        (fun outer walked => onlySlots outer
          (Construct.mem_walk_of_child inside walked))
        ((List.forall₂_iff_zip.mp made).2 pair)
      refine ⟨depth + 1, part, partDeclared, ?_, ?_⟩
      · intro base
        rw [listing_eq, Nat.add_comm depth, ← Nat.add_assoc]
        exact List.mem_cons_of_mem _
          (mem_forestListing.mpr
            ⟨middle, (List.of_mem_zip pair).2, listed (base + 1)⟩)
      · rcases printed with ⟨outer, walked, ignored⟩ | within
        · exact .inl ⟨outer, Construct.mem_walk_of_child inside walked, ignored⟩
        · have isSlot : root.kind.target? ≠ none → _ :=
            fun called =>
              onlySlots root (Construct.mem_walk_self root) called _ inside
          rcases lines_child declared pair isSlot with ignores | under
          · exact .inl ⟨root, Construct.mem_walk_self root, _, inside, below,
              ignores⟩
          · refine .inr (.trans ?_ under)
            rw [Function.iterate_succ_apply']
            exact within.map Emit.indentLine

end Declaration

namespace GeneratedFunction

def Only (functions : List GeneratedFunction) (name : String)
    (function : GeneratedFunction) :
    Prop :=
  function ∈ functions ∧ ∀ other ∈ functions,
    other.name = name ↔ other = function

def Generated (signatures : Signatures) (component : Component)
    (function : GeneratedFunction) :
    Prop :=
  ∃ whole, Declaration.ofConstruct signatures component.root = .ok whole ∧
    function = ⟨component.name, (signatures.get? component.name).getD [],
      whole.code⟩

theorem generated_of_ofComponent {signatures : Signatures}
    {component : Component} {result : GeneratedFunction × List Event}
    (made : ofComponent signatures component = .ok result) :
    Generated signatures component result.1 := by
  unfold ofComponent at made
  split at made
  · cases made
  · rename_i whole declared
    obtain rfl := Except.ok.inj made
    exact ⟨whole, declared, rfl⟩

theorem Generated.header {signatures : Signatures} {component : Component}
    {function : GeneratedFunction}
    (generated : Generated signatures component function)
    (kind : component.root.kind = .component component.name) :
    ∃ rest, function.code = Emit.joinLines (("func " ++ function.name ++ "(" ++
      ", ".intercalate (function.parameters.map Parameter.text) ++
        ") string \x7b") :: rest) := by
  obtain ⟨whole, declared, rfl⟩ := generated
  obtain ⟨content, frame, _, _, framed, _, _, lines⟩ :=
    Declaration.ofConstruct_ok declared
  rw [kind, Declaration.frame] at framed
  split at framed
  · cases framed
  · rename_i parameters known
    obtain rfl := Except.ok.inj framed
    refine ⟨content.body ++ ["\x7d"], ?_⟩
    rw [Declaration.code, lines, known, Option.getD_some]
    simp [String.append_assoc]

end GeneratedFunction

namespace Call

/-- The call names the function and gives it one argument for each parameter of
its header, in that order: the expression of the one supply that goes to the
parameter. -/
structure Fits (call : Call) (supplies : List Supply)
    (callee : GeneratedFunction) : Prop where
  target : call.target = callee.name
  header :
    ∃ rest, callee.code = Emit.joinLines (("func " ++ callee.name ++ "(" ++
    ", ".intercalate (callee.parameters.map Parameter.text) ++
      ") string \x7b") :: rest)
  arguments : List.Forall₂ (Parameter.Receives callee.parameters supplies)
    callee.parameters
    call.arguments

/-- The function of the component declares the placeholder, and that declaration
returns the call. -/
def MadeIn (call : Call) (signatures : Signatures) (component : Component)
    (placeholder : Construct) (function : GeneratedFunction) : Prop :=
  ∃ whole part depth slots,
    Declaration.ofConstruct signatures component.root = .ok whole ∧
    function.code = Emit.joinLines whole.lines ∧
    Declaration.ofConstruct signatures placeholder = .ok part ∧
    (depth, part) ∈ whole.listing 0 ∧
    Declaration.Printed signatures component.root placeholder whole part depth ∧
    part.lines = (Declaration.closure part.name ++ " \x7b") :: slots ++
      ["\treturn " ++ call.text, "\x7d"]

end Call

/-- The declaration of a placeholder returns a call that gives to each parameter
of its target what the placeholder supplies. -/
theorem Declaration.exists_call {signatures : Signatures}
    {placeholder : Construct} {part : Declaration} {target : String}
    {arguments : List Argument}
    (kind : placeholder.kind = .placeholder target arguments)
    (declared : Declaration.ofConstruct signatures placeholder = .ok part)
    (distinct : ∀ parameters, signatures.get? target = some parameters →
      (parameters.map Parameter.name).Nodup) :
    ∃ parameters call slots, signatures.get? target = some parameters ∧
      call.target = target ∧
      List.Forall₂ (Parameter.Receives parameters placeholder.supplies)
        parameters
        call.arguments ∧
      part.lines = (Declaration.closure part.name ++ " \x7b") :: slots ++
        ["\treturn " ++ Call.text call, "\x7d"] := by
  obtain ⟨content, frame, below, written, framed, _, _, lines⟩ :=
    ofConstruct_ok declared
  obtain ⟨linked, links, body⟩ := content_placeholder kind below written
  obtain ⟨parameters, _, known, _, named, _, _⟩ := Call.link_ok links
  rw [kind] at framed
  obtain rfl := Except.ok.inj framed
  obtain ⟨slots, ends⟩ :
      ∃ slots, content.body = slots ++ ["\treturn " ++ linked.call.text] :=
    ⟨_, body⟩
  refine ⟨parameters, linked.call, slots, known, named, ?_, ?_⟩
  · rw [Construct.supplies, kind]
    exact Call.link_receives known (distinct parameters known) links
  · rw [lines, ends, List.cons_append, List.append_assoc]
    rfl

namespace Catalog

variable {files : List TemplateFile} {catalog : Catalog} {events : List Event}

theorem functions_ok {functions : List GeneratedFunction} {told : List Event}
    (compiled : catalog.functions = .ok (functions, told)) :
    ∃ signatures, Signatures.ofCatalog catalog = .ok signatures ∧
      List.Forall₂ (GeneratedFunction.Generated signatures) catalog.components
        functions := by
  unfold Catalog.functions at compiled
  obtain ⟨signatures, derived, compiled⟩ := Except.bind_eq_ok.mp compiled
  obtain ⟨generated, mapped, compiled⟩ := Except.bind_eq_ok.mp compiled
  obtain ⟨rfl, _⟩ := Prod.mk.inj (Except.pure_eq_ok.mp compiled)
  refine ⟨signatures, derived, ?_⟩
  rw [List.forall₂_map_right_iff]
  exact (Except.forall₂_of_mapM mapped).imp fun _ _ =>
    GeneratedFunction.generated_of_ofComponent

theorem names_of_generated {signatures : Signatures}
    {components : List Component} {functions : List GeneratedFunction}
    (generated : List.Forall₂ (GeneratedFunction.Generated signatures)
      components functions) :
    functions.map GeneratedFunction.name = components.map Component.name := by
  induction generated with
  | nil => rfl
  | cons first _ induction =>
      obtain ⟨_, _, rfl⟩ := first
      rw [List.map_cons, List.map_cons, induction]

theorem exists_only {signatures : Signatures}
    {functions : List GeneratedFunction} (apart : catalog.names.Nodup)
    (generated : List.Forall₂ (GeneratedFunction.Generated signatures)
      catalog.components functions)
    {component : Component} (member : component ∈ catalog.components) :
    ∃ function, GeneratedFunction.Only functions component.name function ∧
      GeneratedFunction.Generated signatures component function := by
  obtain ⟨function, listed, made⟩ := generated.exists_of_mem_left member
  have named : function.name = component.name := by
    obtain ⟨_, _, rfl⟩ := made
    rfl
  have distinct : (functions.map GeneratedFunction.name).Nodup := by
    rw [names_of_generated generated]
    exact apart
  refine ⟨function, ⟨listed, ?_⟩, made⟩
  intro other inside
  rw [← named]
  exact ⟨List.inj_on_of_nodup_map distinct inside listed, congrArg _⟩

/-- Every placeholder makes a call that fits the function of its target, as its
header stands in the same output. What it supplies are the attributes of its
element, without the reserved ones, and its slots. -/
theorem calls_match_definitions (parsed : parse files = .ok (catalog, events))
    {functions : List GeneratedFunction} {told : List Event}
    (compiled : catalog.functions = .ok (functions, told)) {caller : Component}
    (member : caller ∈ catalog.components) {placeholder : Construct}
    (inside : placeholder ∈ caller.root.walk) {target : String}
    {arguments : List Argument}
    (kind : placeholder.kind = .placeholder target arguments) :
    (∃ signatures function callee call,
      Signatures.ofCatalog catalog = .ok signatures ∧
      GeneratedFunction.Only functions caller.name function ∧
      GeneratedFunction.Only functions target callee ∧
      Call.MadeIn call signatures caller placeholder function ∧
      Call.Fits call placeholder.supplies callee) ∧
    ∃ file ∈ files, caller.file = file.label ∧ ∃ known name element,
      Construct.BuiltFrom ⟨Source.ofText file.text, known, name⟩ element
        placeholder ∧
      List.Forall₂ (fun attr argument => argument.name = attr.name ∧
          AttributeValue.read (Source.ofText file.text) attr =
            .ok argument.value)
        (element.tag.attributes.filter fun attr =>
          !Directive.isReserved attr.name) arguments := by
  constructor
  · have apart := nodup_names parsed
    obtain ⟨signatures, derived, generated⟩ := functions_ok compiled
    obtain ⟨derivation, _⟩ := Signatures.derivation_of_ofCatalog derived
    obtain ⟨function, only, whole, declared, rfl⟩ :=
      exists_only apart generated member
    have onlySlots : ∀ outer ∈ caller.root.walk, outer.kind.target? ≠ none →
        ∀ child ∈ outer.children, child.kind.isSlot := by
      intro outer walked called
      obtain ⟨_, _, _, _, _, _, built, _⟩ :=
        exists_builtFrom parsed member walked
      exact built.slots_of_placeholder called
    obtain ⟨depth, part, partDeclared, listed, printed⟩ :=
      Declaration.exists_listed caller.root inside onlySlots declared
    obtain ⟨parameters, call, slots, known, named, received, lines⟩ :=
      Declaration.exists_call kind partDeclared fun _ =>
        derivation.nodup_parameters
    obtain ⟨component, componentMember, rfl⟩ := List.mem_map.mp
      (derivation.names_subset
        (List.mem_map_of_mem (Signatures.mem_of_get? known)))
    obtain ⟨callee, onlyCallee, made⟩ :=
      exists_only apart generated componentMember
    obtain ⟨_, _, _, _, _, _, _, _, _, _, root⟩ :=
      parse_ok parsed componentMember
    have header := made.header root
    have calleeParameters : callee.parameters = parameters := by
      obtain ⟨_, _, rfl⟩ := made
      simp [known]
    have calleeNamed : callee.name = component.name := by
      obtain ⟨_, _, rfl⟩ := made
      rfl
    refine ⟨signatures, _, callee, call, derived, only, onlyCallee, ?_, ?_,
      header, ?_⟩
    · refine ⟨whole, part, depth, slots, declared, rfl, partDeclared, ?_,
        printed, lines⟩
      simpa using listed 0
    · rw [named, calleeNamed]
    · rw [calleeParameters]
      exact received
  · obtain ⟨file, inFiles, label, known, name, element, built, _⟩ :=
      exists_builtFrom parsed member inside
    refine ⟨file, inFiles, label, known, name, element, built, ?_⟩
    refine (Except.forall₂_of_mapM (built.arguments_of_placeholder kind)).imp ?_
    intro attr argument read
    obtain ⟨value, spelled, rfl⟩ := Except.map_eq_ok.mp read
    exact ⟨rfl, spelled⟩

/-- The attributes stand in another order and in another case than the
parameters, one of them goes to none, and a slot comes between. -/
theorem calls_match_definitions_slot :
    let files : List TemplateFile :=
      [⟨"page.html", "<p _component=\"Page\"><card OPEN extra=\"x\" " ++
          "Title=\"\x7b\x7b name \x7d\x7d\"><i _slot=\"body\">hi</i>" ++
          "</card></p>"⟩,
        ⟨"card.html", "<p _component=\"Card\">\x7b\x7b title \x7d\x7d" ++
          "<b _if=\"open\">$slot('body')</b></p>"⟩]
    ∃ catalog events functions told signatures page placeholder function callee
        call,
      parse files = .ok (catalog, events) ∧
      catalog.functions = .ok (functions, told) ∧
      GeneratedFunction.Only functions "Page" function ∧
      GeneratedFunction.Only functions "Card" callee ∧
      callee.parameters = [⟨"title", "string"⟩, ⟨"body", "string"⟩,
        ⟨"open", "bool"⟩] ∧
      Call.text call = "Card(name, gtmlSlot(slot2), true)" ∧
      Call.MadeIn call signatures page placeholder function ∧
      Call.Fits call (Construct.supplies placeholder) callee := by
  intro files
  let lines : List String :=
    ["placeholder1 := func() string \x7b", "\tslot2 := func() string \x7b",
      "\t\tvar slot2Builder strings.Builder",
      "\t\tslot2Builder.WriteString(\"<i _slot=\\\"body\\\">hi</i>\")",
      "\t\treturn slot2Builder.String()", "\t\x7d"]
  have shape : (parse files).map (fun result =>
      (result.1.components.any (fun page => page.name = "Page" ∧
          page.root.walk.any fun placeholder => placeholder.kind.target? =
            some "Card" ∧
            (do let signatures ← Signatures.ofCatalog result.1
                let part ← Declaration.ofConstruct signatures placeholder
                return part.lines) =
              .ok (lines ++ ["\treturn Card(name, gtmlSlot(slot2), true)",
                "\x7d"])),
        result.1.functions.map fun compiled => compiled.1.all fun function =>
          function.name = "Card" →
            function.parameters =
              [⟨"title", "string"⟩, ⟨"body", "string"⟩, ⟨"open", "bool"⟩])) =
      .ok (true, .ok true) := by decide +kernel
  obtain ⟨⟨catalog, events⟩, parsed, shape⟩ := Except.map_eq_ok.mp shape
  obtain ⟨found, compiled⟩ := Prod.mk.inj shape
  obtain ⟨⟨functions, told⟩, compiled, headers⟩ := Except.map_eq_ok.mp compiled
  simp only [List.any_eq_true, List.all_eq_true, decide_eq_true_eq]
    at found headers
  obtain ⟨page, member, named, placeholder, inside, target, printed⟩ := found
  obtain ⟨arguments, kind⟩ := Construct.Kind.target?_eq_some.mp target
  obtain ⟨⟨signatures, function, callee, call, derived, only, onlyCallee, made,
      fits⟩, _⟩ :=
    calls_match_definitions parsed compiled member inside kind
  have text : Call.text call = "Card(name, gtmlSlot(slot2), true)" := by
    obtain ⟨_, part, _, slots, _, _, declared, _, _, written⟩ := made
    obtain ⟨_, same, printed⟩ := Except.bind_eq_ok.mp printed
    obtain rfl := Except.ok.inj (derived.symm.trans same)
    obtain ⟨_, same, printed⟩ := Except.bind_eq_ok.mp printed
    obtain rfl := Except.ok.inj (declared.symm.trans same)
    have ends :=
      List.append_inj_right' (written.symm.trans (Except.pure_eq_ok.mp printed))
        rfl
    exact (String.append_right_inj "\treturn ").mp (List.cons.inj ends).1
  rw [named] at only
  exact ⟨catalog, events, functions, told, signatures, page, placeholder,
    function, callee, call,
    parsed, compiled, only, onlyCallee,
    headers callee onlyCallee.1 ((onlyCallee.2 callee onlyCallee.1).mpr rfl),
    text, made, fits⟩

end Catalog

end Stencil
