import Mathlib.Data.List.Perm.Basic
import Stencil.Proofs.Spelling
import Stencil.Proofs.Statements

namespace Stencil

open Text

/-! Every closure is declared before the one place that uses it, and none is
left unused. -/

namespace Segment

theorem expressions_code (text : String) (segments : List Segment) :
    (Segment.code text :: segments).filterMap expression? =
      text :: segments.filterMap expression? := rfl

theorem expressions_ofText (chars : List Char) :
    (ofText chars).filterMap expression? = [] := by
  cases chars <;> rfl

theorem expressions_ofMarked (marked : MarkedText) :
    (ofMarked marked).filterMap expression? =
      marked.markers.map expression := by
  rw [ofMarked, List.filterMap_append, expressions_ofText, List.nil_append,
    MarkedText.markers, List.filterMap_flatMap, List.map_map,
    List.map_eq_flatMap]
  apply List.flatMap_congr
  intro entry _
  rw [expressions_code, expressions_ofText]
  rfl

theorem expressions_weave (runs : List MarkedText) (calls : List String) :
    ((weave runs calls).filterMap expression?).Perm
      (calls ++ (runs.flatMap MarkedText.markers).map expression) := by
  induction calls generalizing runs with
  | nil =>
      have last : weave runs [] = runs.flatMap ofMarked := by cases runs <;> rfl
      rw [last, List.filterMap_flatMap, List.map_flatMap, List.nil_append,
        List.flatMap_congr fun run _ => expressions_ofMarked run]
  | cons call calls induction =>
      cases runs with
      | nil =>
          have all : weave [] (call :: calls) = (call :: calls).map .code := rfl
          rw [all, List.filterMap_map, List.flatMap_nil, List.map_nil,
            List.append_nil]
          exact .of_eq List.filterMap_some
      | cons run runs =>
          rw [weave, List.filterMap_append, expressions_ofMarked,
            expressions_code, List.flatMap_cons, List.map_append,
            List.cons_append]
          refine List.perm_middle.trans (.cons call ?_)
          refine ((induction runs).append_left _).trans ?_
          rw [← List.append_assoc, ← List.append_assoc]
          exact List.perm_append_comm.append_right _

theorem count_code (segments : List Segment) (text : String) :
    segments.count (.code text) =
      (segments.filterMap expression?).count text := by
  induction segments with
  | nil => rfl
  | cons segment rest induction =>
      cases segment with
      | markup other =>
          rw [List.count_cons_of_ne (by simp), List.filterMap_cons_none rfl,
            induction]
      | code other =>
          rw [expressions_code, List.count_cons, List.count_cons, induction]
          simp

def renderers : List String :=
  ["gtmlEscape", "gtmlRaw", "gtmlRawAttr"]

theorem renderers_plain :
    renderers.all fun word => word.toList.all fun char => !char.isDigit := by
  decide

theorem renderers_spelled :
    renderers.all fun word => word.toList.all isIdentifierPart := by decide

theorem expression_cases {marker : Marker} (named : marker.WellNamed) :
    (∃ word ∈ renderers, ∃ rest, expression marker = word ++ "(" ++ rest) ∨
      (expression marker).toList.all isIdentifierPart := by
  have renders : ∀ word ∈ renderers, ∀ inner text,
      text = word ++ "(" ++ inner ++ ")" →
      ∃ word ∈ renderers, ∃ rest, text = word ++ "(" ++ rest := by
    rintro word member inner _ rfl
    exact ⟨word, member, inner ++ ")",
      by rw [String.append_assoc, ← String.append_assoc]⟩
  cases marker with
  | interpolation inner =>
      exact .inl (renders "gtmlEscape" (by simp [renderers]) inner.value _ rfl)
  | rune inner =>
      obtain ⟨kind, value, raw, span, location⟩ := inner
      cases kind with
      | prop | val =>
          exact .inl (renders "gtmlEscape" (by simp [renderers]) value _ rfl)
      | slot => exact .inr (spelled_of_isIdentifier (named value rfl))
      | pipe =>
          cases location with
          | tag =>
              exact .inl (renders "gtmlRawAttr" (by simp [renderers])
                value _ rfl)
          | text =>
              exact .inl (renders "gtmlRaw" (by simp [renderers]) value _ rfl)

end Segment

namespace Call

namespace Draft

variable {target html : String} {parameters : List Parameter}
  {supplies : List Supply} {draft next : Draft}

def UsesOnly (parameters : List Parameter) (draft : Draft) : Prop :=
  ∀ name ∈ draft.usedSlots, (Parameter.find? parameters name).isSome

theorem UsesOnly.add {supply : Supply} (only : UsesOnly parameters draft)
    (added : draft.add target html parameters supply = .ok next) :
    UsesOnly parameters next := by
  cases supply with
  | ofArgument argument =>
      rw [Draft.add, addArgument] at added
      split at added
      · obtain rfl := Except.ok.inj added
        exact only
      · split at added
        · cases added
        · obtain ⟨_, rfl⟩ := bind_ok added
          exact only
  | ofSlot slot =>
      rw [Draft.add, addSlot] at added
      split at added
      · obtain rfl := Except.ok.inj added
        exact only
      · rename_i parameter found
        obtain ⟨middle, bound, rfl⟩ := Except.map_eq_ok.mp added
        obtain ⟨_, rfl⟩ := bind_ok bound
        intro name member
        rcases List.mem_append.mp member with earlier | last
        · exact only name earlier
        · rw [List.mem_singleton.mp last, found]
          rfl

theorem UsesOnly.foldlM {more : List Supply} (only : UsesOnly parameters draft)
    (ran : more.foldlM (Draft.add target html parameters) draft = .ok next) :
    UsesOnly parameters next := by
  induction more generalizing draft with
  | nil =>
      obtain rfl := Except.pure_eq_ok.mp ran
      exact only
  | cons supply rest induction =>
      rw [List.foldlM_cons] at ran
      obtain ⟨middle, step, ran⟩ := Except.bind_eq_ok.mp ran
      exact induction (only.add step) ran

def bound? (draft : Draft) (name : String) : Option String :=
  (draft.bindings.find? fun binding => binding.parameter == name).map
    Binding.expression

theorem bound?_of_argument {parameter : Parameter} {expression : String}
    (given : draft.argument target html parameter = .ok expression) :
    draft.bound? parameter.name = some expression ∧
      parameter.name ∈ draft.bindings.map Binding.parameter := by
  unfold argument at given
  unfold bound?
  split at given
  · cases given
  · rename_i binding found
    obtain rfl := Except.ok.inj given
    have named : binding.parameter = parameter.name := by
      simpa using List.find?_some found
    refine ⟨by rw [found, Option.map_some], ?_⟩
    rw [← named]
    exact List.mem_map_of_mem (List.mem_of_find?_eq_some found)

theorem bound?_of_mem {binding : Binding}
    (apart : (draft.bindings.map Binding.parameter).Nodup)
    (member : binding ∈ draft.bindings) :
    draft.bound? binding.parameter = some binding.expression := by
  have listed : (draft.bindings.find? fun other =>
      other.parameter == binding.parameter).isSome :=
    List.find?_isSome.mpr ⟨binding, member, beq_self_eq_true binding.parameter⟩
  obtain ⟨other, found⟩ := Option.isSome_iff_exists.mp listed
  have named : other.parameter = binding.parameter := by
    simpa using List.find?_some found
  obtain rfl := List.inj_on_of_nodup_map apart (List.mem_of_find?_eq_some found)
    member named
  rw [bound?, found, Option.map_some]

/-- The arguments of a call are the expressions that are bound, in the order of
the parameters. -/
theorem Holds.arguments_perm (holds : Holds parameters supplies draft)
    (distinct : (parameters.map Parameter.name).Nodup) {arguments : List String}
    (mapped : parameters.mapM (draft.argument target html) = .ok arguments) :
    arguments.Perm (draft.bindings.map Binding.expression) := by
  have given := Except.forall₂_of_mapM mapped
  have names : (parameters.map Parameter.name).Perm
      (draft.bindings.map Binding.parameter) := by
    rw [List.perm_ext_iff_of_nodup distinct holds.apart]
    intro name
    constructor
    · intro member
      obtain ⟨parameter, listed, rfl⟩ := List.mem_map.mp member
      obtain ⟨_, _, found⟩ := given.exists_of_mem_left listed
      exact (bound?_of_argument found).2
    · intro member
      obtain ⟨binding, listed, rfl⟩ := List.mem_map.mp member
      obtain ⟨_, _, parameter, found, same, _⟩ :=
        holds.bound.exists_of_mem_right listed
      rw [same]
      exact List.mem_map_of_mem (Parameter.mem_of_find? found)
  have passed : arguments.map some =
      (parameters.map Parameter.name).map draft.bound? := by
    rw [List.map_map]
    exact given.map_eq fun _ _ found => (bound?_of_argument found).1
  have bound : (draft.bindings.map Binding.expression).map some =
      (draft.bindings.map Binding.parameter).map draft.bound? := by
    rw [List.map_map, List.map_map]
    exact List.map_congr_left fun binding member =>
      (bound?_of_mem holds.apart member).symm
  have same : (arguments.map some).Perm
      ((draft.bindings.map Binding.expression).map some) := by
    rw [passed, bound]
    exact names.map _
  exact (List.map_perm_map_iff fun _ _ => Option.some.inj).mp same

end Draft

def Gives (parameters : List Parameter) (argument : Argument) (text : String) :
    Prop :=
  ∃ parameter, Parameter.find? parameters argument.name = some parameter ∧
    parameter.convert argument.value = .ok text

def gives (parameters : List Parameter) (text : String)
    (argument : Argument) : Bool :=
  (Parameter.find? parameters argument.name).any fun parameter =>
    (parameter.convert argument.value).toOption == some text

theorem count_of_gives {parameters : List Parameter}
    {attributes : List Argument} {given : List String}
    (each : List.Forall₂ (Gives parameters) attributes given)
    (text : String) :
    given.count text = attributes.countP (gives parameters text) := by
  induction each with
  | nil => rfl
  | @cons argument expression attributes given here _ induction =>
      obtain ⟨parameter, found, converts⟩ := here
      have same : gives parameters text argument = (expression == text) := by
        simp [gives, found, converts, Except.toOption]
      rw [List.count_cons, List.countP_cons, induction, same]

theorem countP_gives_filter (parameters : List Parameter) (text : String)
    (attributes : List Argument) :
    (attributes.filter fun argument =>
      (Parameter.find? parameters argument.name).isSome).countP
        (gives parameters text) =
          attributes.countP (gives parameters text) := by
  rw [List.countP_filter]
  refine List.countP_congr fun argument _ => ?_
  unfold gives
  cases Parameter.find? parameters argument.name <;> simp

theorem link_used {signatures : Signatures} {target html : String}
    {attributes : List Argument} {slots : List SlotArgument}
    {linked : LinkedCall}
    (links : link signatures target html attributes slots = .ok linked)
    {parameters : List Parameter}
    (known : signatures.get? target = some parameters) :
    ∀ slot ∈ slots,
      linked.usedSlots.contains slot.name =
        (Parameter.find? parameters slot.name).isSome := by
  obtain ⟨others, draft, same, ran, _, used, _⟩ := link_runs links
  obtain rfl := Option.some.inj (known.symm.trans same)
  have only : Draft.UsesOnly parameters draft := by
    refine Draft.UsesOnly.foldlM ?_ ran
    exact List.forall_mem_nil _
  intro slot listed
  rw [used, Bool.eq_iff_iff, List.contains_iff_mem]
  refine ⟨only slot.name, fun found =>
    (Draft.Holds.empty.foldlM ran).used slot ?_ found⟩
  exact List.mem_append_right _
    (List.mem_append_right _ (List.mem_map_of_mem listed))

theorem link_arguments {signatures : Signatures} {target html : String}
    {attributes : List Argument} {slots : List SlotArgument}
    {linked : LinkedCall}
    (distinct : ∀ parameters, signatures.get? target = some parameters →
      (parameters.map Parameter.name).Nodup)
    (links : link signatures target html attributes slots = .ok linked) :
    ∃ parameters given, signatures.get? target = some parameters ∧
      linked.call.target = target ∧
      List.Forall₂ (Gives parameters)
        (attributes.filter fun argument =>
          (Parameter.find? parameters argument.name).isSome)
        given ∧
      linked.call.arguments.Perm
        ((slots.filter fun slot => linked.usedSlots.contains slot.name).map
          SlotArgument.expression ++ given) := by
  obtain ⟨parameters, draft, known, ran, named, used, mapped⟩ := link_runs links
  have holds := Draft.Holds.empty.foldlM ran
  have bound := holds.bound
  rw [List.nil_append, Supply.all, List.filter_append, List.filter_map,
    List.filter_map] at bound
  obtain ⟨first, second, bindings, ofAttributes, ofSlots⟩ := bound.exists_append
  have same : (slots.filter fun slot => linked.usedSlots.contains slot.name) =
      slots.filter fun slot => (Parameter.find? parameters slot.name).isSome :=
    List.filter_congr (link_used links known)
  refine ⟨parameters, first.map Binding.expression, known, named, ?_, ?_⟩
  · rw [List.forall₂_map_right_iff]
    refine (List.forall₂_map_left_iff.mp ofAttributes).imp ?_
    rintro argument binding ⟨parameter, found, _, converts⟩
    exact ⟨parameter, found, converts⟩
  · have expressions : second.map Binding.expression =
        (slots.filter fun slot => linked.usedSlots.contains slot.name).map
          SlotArgument.expression := by
      rw [same]
      refine (List.forall₂_map_left_iff.mp ofSlots).map_eq ?_
      rintro slot binding ⟨parameter, _, _, written⟩
      exact Except.ok.inj written
    have perm := holds.arguments_perm (distinct parameters known) mapped
    rw [bindings, List.map_append, expressions] at perm
    exact perm.trans List.perm_append_comm

end Call

namespace Declaration

variable {signatures : Signatures} {construct : Construct} {part : Declaration}

theorem lastNumber_around {kind : Construct.Kind}
    (plain : ∀ name, kind ≠ .component name) (number : Nat) (front : String)
    {behind : String} (other : behind.toList.all fun char => !char.isDigit) :
    lastNumber (front ++ nameOf kind number ++ behind) =
      (toString number).toList.reverse := by
  have ends : (front ++ kind.label).toList.getLast?.all fun char =>
      !char.isDigit := by
    cases kind <;> simp [Construct.Kind.label]
  rw [nameOf_plain plain, ← String.append_assoc]
  exact lastNumber_append number ends other

theorem lastNumber_call (plain : ∀ name, construct.kind ≠ .component name)
    (declared : ofConstruct signatures construct = .ok part) :
    lastNumber part.call = (toString construct.id).toList.reverse := by
  obtain ⟨_, frame, _, _, framed, named, call, _⟩ := ofConstruct_ok declared
  rw [call]
  rw [named] at framed
  cases kind : construct.kind with
  | component name => exact absurd kind (plain name)
  | loop | conditional | alternative | slot =>
      rw [kind] at framed plain
      obtain rfl := Except.ok.inj framed
      exact lastNumber_around plain _ _ (by decide)
  | placeholder =>
      rw [kind] at framed plain
      obtain rfl := Except.ok.inj framed
      rw [← String.empty_append (s := nameOf _ construct.id)]
      exact lastNumber_around plain _ _ (by decide)

theorem call_eq (plain : ∀ name, construct.kind ≠ .component name)
    (declared : ofConstruct signatures construct = .ok part) :
    ∃ word rest, part.call = word ++ "(" ++ rest ∧
      word.toList.all isIdentifierPart ∧
      word ∉ Segment.renderers := by
  obtain ⟨_, frame, _, _, framed, named, call, _⟩ := ofConstruct_ok declared
  rw [call]
  cases kind : construct.kind with
  | component name => exact absurd kind (plain name)
  | loop item collection type =>
      rw [kind] at framed
      obtain rfl := Except.ok.inj framed
      refine ⟨"gtmlFor", collection ++ ", " ++ part.name ++ ")", ?_,
        by decide, by decide⟩
      simp [String.append_assoc]
  | conditional condition =>
      rw [kind] at framed
      obtain rfl := Except.ok.inj framed
      refine ⟨"gtmlIf", condition ++ ", " ++ part.name ++ ")", ?_,
        by decide, by decide⟩
      simp [String.append_assoc]
  | alternative condition =>
      rw [kind] at framed
      obtain rfl := Except.ok.inj framed
      refine ⟨"gtmlElse", condition ++ ", " ++ part.name ++ ")", ?_,
        by decide, by decide⟩
      simp [String.append_assoc]
  | slot name =>
      rw [kind] at framed
      obtain rfl := Except.ok.inj framed
      refine ⟨"gtmlSlot", part.name ++ ")", ?_, by decide, by decide⟩
      simp [String.append_assoc]
  | placeholder target arguments =>
      rw [kind] at framed
      obtain rfl := Except.ok.inj framed
      refine ⟨part.name, ")", ?_, ?_, ?_⟩
      · simp [String.append_assoc]
      · rw [named]
        exact spelled_nameOf plain _
      · rw [named]
        intro member
        exact nameOf_ne plain _
          (List.all_eq_true.mp Segment.renderers_plain _ member) rfl

theorem call_ne_expression (plain : ∀ name, construct.kind ≠ .component name)
    (declared : ofConstruct signatures construct = .ok part) {marker : Marker}
    (named : marker.WellNamed) : part.call ≠ Segment.expression marker := by
  obtain ⟨word, rest, call, spelled, other⟩ := call_eq plain declared
  have opens : ∀ word rest : String, (word ++ "(" ++ rest).toList =
      word.toList ++ '(' :: rest.toList := by simp
  intro same
  rcases Segment.expression_cases named with
    ⟨renderer, member, more, written⟩ | name
  · have chars := congrArg String.toList (call.symm.trans (same.trans written))
    rw [opens, opens] at chars
    have words := congrArg (List.takeWhile isIdentifierPart) chars
    rw [Statement.takeWhile_word spelled (by decide), Statement.takeWhile_word
      (List.all_eq_true.mp Segment.renderers_spelled _ member) (by decide)]
      at words
    rw [String.toList_inj.mp words] at other
    exact other member
  · rw [← same, call, opens, List.all_append, List.all_cons] at name
    exact absurd name (by simp [isIdentifierPart])

theorem content_segments {content : Content} {builder : String}
    {inner : List Declaration} (plain : construct.kind.target? = none)
    (written : Declaration.content signatures construct builder inner =
      .ok content) :
    content.segments = Segment.weave construct.runs
      (inner.map Declaration.call) := by
  unfold Declaration.content at written
  cases kind : construct.kind with
  | placeholder target arguments => simp [kind, Construct.Kind.target?] at plain
  | component | loop | conditional | alternative | slot =>
      rw [kind] at written
      obtain rfl := Except.ok.inj written
      rfl

section Parts

variable
  (below : ∀ child ∈ construct.children, ∀ name, child.kind ≠ .component name)
  (rising : (construct.children.map Construct.id).Pairwise (· < ·))

include below rising

theorem nodup_calls (declared : ofConstruct signatures construct = .ok part) :
    (part.inner.map Declaration.call).Nodup := by
  obtain ⟨_, _, made, _⟩ := ofConstruct_ok declared
  have each := (List.forall₂_and_left _ _).mpr ⟨below, made⟩
  apply Construct.nodup_of_lastNumber rising
  rw [List.map_map]
  exact each.map_eq fun _ _ made => (lastNumber_call made.1 made.2).symm

theorem count_call (plain : construct.kind.target? = none)
    (named : ∀ marker ∈ construct.markers, marker.WellNamed)
    (declared : ofConstruct signatures construct = .ok part) :
    ∀ inner ∈ part.inner, part.segments.count (.code inner.call) = 1 := by
  obtain ⟨content, _, made, written, _⟩ := ofConstruct_ok declared
  have segments : part.segments =
      Segment.weave construct.runs (part.inner.map Declaration.call) := by
    rw [(ofConstruct_fields declared).2.2 content written,
      content_segments plain written]
  intro inner listed
  obtain ⟨child, inside, innerMade⟩ := made.exists_of_mem_right listed
  have unmarked : inner.call ∉ construct.markers.map Segment.expression := by
    intro member
    obtain ⟨marker, marked, same⟩ := List.mem_map.mp member
    exact call_ne_expression (below child inside) innerMade
      (named marker marked) same.symm
  rw [Segment.count_code, segments, (Segment.expressions_weave _ _).count_eq,
    List.count_append, List.count_eq_one_of_mem
      (nodup_calls below rising declared) (List.mem_map_of_mem listed)]
  exact congrArg (1 + ·) (List.count_eq_zero.mpr unmarked)

end Parts

/-- The body declares the builder, then each part once and in order, and only
then writes; the call of each part is written once. -/
structure WritesParts (part : Declaration) : Prop where
  statements : part.statements = .builder part.builder ::
    (part.inner.map fun inner => .closure inner.name) ++
    (part.segments.map fun segment => .write part.builder segment.text) ++
    [.result (part.builder ++ ".String()")]
  once : ∀ inner ∈ part.inner, part.segments.count (.code inner.call) = 1

/-- The body declares the slots that go to a parameter of the target, each once
and in order, and then makes the call. The arguments of the call are the
expressions of these slots and what the attributes give. So the expression of a
slot is an argument once if the slot is declared, and once more for each
attribute that gives the same text. -/
structure PassesSlots (construct : Construct) (part : Declaration)
    (parameters : List Parameter) (attributes : List Argument) (call : Call)
    (used : List Declaration) : Prop where
  slots : ∀ slot ∈ part.inner, slot.call = "gtmlSlot(" ++ slot.name ++ ")"
  apart : (part.inner.map Declaration.call).Nodup
  matched : used = ((Declaration.slots construct.children part.inner).filter
    fun slot => (Parameter.find? parameters slot.1).isSome).map Prod.snd
  among : used.Sublist part.inner
  statements : part.statements =
    (used.map fun slot => .closure slot.name) ++ [.result call.text]
  arguments :
    ∃ given, call.arguments.Perm (used.map Declaration.call ++ given) ∧
    List.Forall₂ (Call.Gives parameters) (attributes.filter fun argument =>
      (Parameter.find? parameters argument.name).isSome) given
  declared : ∀ slot ∈ used, call.arguments.count slot.call =
    1 + attributes.countP (Call.gives parameters slot.call)
  undeclared : ∀ slot ∈ part.inner, slot ∉ used →
    call.arguments.count slot.call =
      attributes.countP (Call.gives parameters slot.call)

theorem count_call_of_perm {inner used : List Declaration}
    {arguments given : List String}
    (apart : (inner.map Declaration.call).Nodup)
    (among : used.Sublist inner)
    (same : arguments.Perm (used.map Declaration.call ++ given)) :
    (∀ slot ∈ used, arguments.count slot.call = 1 + given.count slot.call) ∧
    ∀ slot ∈ inner, slot ∉ used →
      arguments.count slot.call = given.count slot.call := by
  constructor
  · intro slot listed
    rw [same.count_eq, List.count_append,
      List.count_eq_one_of_mem (apart.sublist (among.map _))
        (List.mem_map_of_mem listed)]
  · intro slot inside unused
    have absent : slot.call ∉ used.map Declaration.call := by
      intro member
      obtain ⟨other, listed, equal⟩ := List.mem_map.mp member
      obtain rfl := List.inj_on_of_nodup_map apart (among.subset listed)
        inside equal
      exact unused listed
    rw [same.count_eq, List.count_append, List.count_eq_zero.mpr absent,
      Nat.zero_add]

theorem passesSlots_of_placeholder {target : String}
    {attributes : List Argument}
    (kind : construct.kind = .placeholder target attributes)
    (onlySlots : ∀ child ∈ construct.children, child.kind.isSlot)
    (rising : (construct.children.map Construct.id).Pairwise (· < ·))
    (distinct : ∀ parameters, signatures.get? target = some parameters →
      (parameters.map Parameter.name).Nodup)
    (declared : ofConstruct signatures construct = .ok part) :
    ∃ parameters call used, signatures.get? target = some parameters ∧
      call.target = target ∧
      PassesSlots construct part parameters attributes call used := by
  have below : ∀ child ∈ construct.children,
      ∀ name, child.kind ≠ .component name := by
    intro child inside name component
    simpa [component, Construct.Kind.isSlot] using onlySlots child inside
  obtain ⟨_, _, made, _⟩ := ofConstruct_ok declared
  obtain ⟨linked, links, statements⟩ :=
    statements_placeholder kind below declared
  obtain ⟨parameters, given, known, named, gives, arguments⟩ :=
    Call.link_arguments distinct links
  have apart := nodup_calls below rising declared
  have matched : ((slots construct.children part.inner).filter fun slot =>
      linked.usedSlots.contains slot.1) =
      (slots construct.children part.inner).filter fun slot =>
        (Parameter.find? parameters slot.1).isSome := by
    refine List.filter_congr fun slot listed => ?_
    refine Call.link_used links known ⟨slot.1, slot.2.call⟩ ?_
    rw [← slots_eq made]
    exact List.mem_map.mpr ⟨slot, listed, rfl⟩
  rw [← slots_eq made, List.filter_map, List.map_map] at arguments
  rw [matched] at statements
  have among : (((slots construct.children part.inner).filter fun slot =>
      (Parameter.find? parameters slot.1).isSome).map Prod.snd).Sublist
        part.inner :=
    (List.filter_sublist.map Prod.snd).trans
      (slots_sublist construct.children part.inner)
  have passes : linked.call.arguments.Perm
      ((((slots construct.children part.inner).filter fun slot =>
        (Parameter.find? parameters slot.1).isSome).map Prod.snd).map
          Declaration.call ++ given) := by
    rw [← matched, List.map_map]
    exact arguments
  have counts := count_call_of_perm apart among passes
  simp only [Call.count_of_gives gives, Call.countP_gives_filter] at counts
  refine ⟨parameters, linked.call, _, known, named, ?_, apart, rfl, among, ?_,
    ⟨given, passes, gives⟩, counts.1, counts.2⟩
  · intro slot listed
    obtain ⟨child, inside, slotMade⟩ := made.exists_of_mem_right listed
    obtain ⟨name, kind⟩ := Construct.Kind.isSlot_iff.mp
      (onlySlots child inside)
    obtain ⟨_, frame, _, _, framed, _, call, _⟩ := ofConstruct_ok slotMade
    rw [kind] at framed
    rw [call, ← Except.ok.inj framed]
  · rw [statements, List.map_map]
    rfl

end Declaration

namespace Catalog

variable {files : List TemplateFile} {catalog : Catalog} {events : List Event}

/-- In the function of a component the constructs are numbered from zero on in
the order of the walk, no two closures or builders have one name, and every
construct declares and uses the closures inside it as its kind asks for. -/
theorem closures_declared_once (parsed : parse files = .ok (catalog, events))
    {functions : List GeneratedFunction} {told : List Event}
    (compiled : catalog.functions = .ok (functions, told))
    {component : Component} (member : component ∈ catalog.components) :
    ∃ signatures function whole, Signatures.ofCatalog catalog = .ok signatures ∧
      GeneratedFunction.Only functions component.name function ∧
      Declaration.ofConstruct signatures component.root = .ok whole ∧
      function.code = whole.code ∧
      component.root.id = 0 ∧
      (component.root.walk.map Construct.id).Pairwise (· < ·) ∧
      whole.locals.Nodup ∧
      List.Forall₂ (fun construct entry =>
        Declaration.ofConstruct signatures construct = .ok entry.2 ∧
        (construct.kind.target? = none → entry.2.WritesParts) ∧
        ∀ target attributes,
          construct.kind = .placeholder target attributes →
          ∃ parameters call used,
            signatures.get? target = some parameters ∧
            call.target = target ∧
            Declaration.PassesSlots construct entry.2 parameters attributes
              call used)
        component.root.walk (whole.listing 0) := by
  obtain ⟨signatures, derived, generated⟩ := functions_ok compiled
  obtain ⟨function, only, whole, declared, rfl⟩ :=
    exists_only (nodup_names parsed) generated member
  obtain ⟨file, _, _, element, known, _, _, _, built, _, kind⟩ :=
    parse_ok parsed member
  obtain ⟨first, rising⟩ := Construct.build_numbered built
  have below := (Construct.build_ok built).only_root
  obtain ⟨derivation, _⟩ := Signatures.derivation_of_ofCatalog derived
  refine ⟨signatures, _, whole, derived, only, declared, rfl, first, rising,
    Declaration.nodup_locals declared kind below rising, ?_⟩
  have listed := (List.forall₂_and_left _ _).mpr
    ⟨fun _ walked => walked,
      Declaration.forall₂_listing component.root declared 0⟩
  refine listed.imp ?_
  rintro construct entry ⟨walked, made⟩
  obtain ⟨_, _, _, _, _, _, built, _⟩ := exists_builtFrom parsed member walked
  have numbers := Construct.children_rising walked rising
  have children : ∀ child ∈ construct.children, ∀ name,
      child.kind ≠ .component name :=
    fun child inside => built.only_root child inside child
      (Construct.mem_walk_self child)
  refine ⟨made, fun plain => ⟨?_, ?_⟩, fun target attributes kind => ?_⟩
  · exact Declaration.statements_plain plain children made
  · exact Declaration.count_call children numbers plain
      built.markers_wellNamed made
  · have called : construct.kind.target? ≠ none := by
      simp [kind, Construct.Kind.target?]
    exact Declaration.passesSlots_of_placeholder kind
      (built.slots_of_placeholder called) numbers
      (fun _ => derivation.nodup_parameters) made

/-- The call has no parameter for the second slot, and what stands between the
slots is dropped. -/
theorem closures_declared_once_page :
    let files : List TemplateFile :=
      [⟨"page.html",
          "<p _component=\"Page\"><b _if=\"on\">a</b><card title=\"x\">" ++
          "<i _slot=\"body\">b</i><u _if=\"off\">c</u>" ++
          "<i _slot=\"foot\">d</i></card></p>"⟩,
        ⟨"card.html",
          "<p _component=\"Card\">\x7b\x7b title \x7d\x7d$slot('body')</p>"⟩]
    let locals : List String :=
      ["if1", "placeholder2", "slot3", "slot5", "builder", "if1Builder",
        "placeholder2Builder", "slot3Builder", "slot5Builder"]
    ∃ catalog events functions told page function whole,
      parse files = .ok (catalog, events) ∧
      catalog.functions = .ok (functions, told) ∧
      page ∈ catalog.components ∧
      GeneratedFunction.Only functions "Page" function ∧
      function.code = Declaration.code whole ∧
      page.root.walk.map Construct.id = [0, 1, 2, 3, 5] ∧
      whole.locals = locals ∧ whole.locals.Nodup ∧ whole.WritesParts ∧
      ∃ construct part depth parameters attributes call used,
        (depth, part) ∈ whole.listing 0 ∧
        part.statements =
          [.closure "slot3", .result "Card(\"x\", gtmlSlot(slot3))"] ∧
        Declaration.PassesSlots construct part parameters attributes call
          used := by
  intro files locals
  have shape : (parse files).map (fun result =>
      (result.1.functions.map fun _ => (),
        result.1.components.any fun page => page.name = "Page" ∧
          page.root.kind.target? = none ∧
          page.root.walk.map Construct.id = [0, 1, 2, 3, 5] ∧
          (do let signatures ← Signatures.ofCatalog result.1
              let whole ← Declaration.ofConstruct signatures page.root
              return whole.locals) = .ok locals ∧
          page.root.walk.any fun construct =>
            construct.kind.target? = some "Card" ∧
            (do let signatures ← Signatures.ofCatalog result.1
                let part ← Declaration.ofConstruct signatures construct
                return part.statements) =
              .ok [.closure "slot3",
                .result "Card(\"x\", gtmlSlot(slot3))"])) =
      .ok (.ok (), true) := by decide +kernel
  obtain ⟨⟨catalog, events⟩, parsed, shape⟩ := Except.map_eq_ok.mp shape
  obtain ⟨compiled, found⟩ := Prod.mk.inj shape
  obtain ⟨⟨functions, told⟩, compiled, _⟩ := Except.map_eq_ok.mp compiled
  simp only [List.any_eq_true, decide_eq_true_eq] at found
  obtain ⟨page, member, named, plain, numbers, spelled, placeholder, walked,
    target, printed⟩ := found
  obtain ⟨attributes, kind⟩ := Construct.Kind.target?_eq_some.mp target
  obtain ⟨signatures, function, whole, derived, only, declared, code, _, _,
    apart, each⟩ := closures_declared_once parsed compiled member
  obtain ⟨⟨depth, part⟩, listed, made, _, passes⟩ :=
    each.exists_of_mem_left walked
  obtain ⟨parameters, call, used, _, _, passes⟩ := passes "Card" attributes kind
  obtain ⟨⟨_, root⟩, _, rootMade, writes, _⟩ :=
    each.exists_of_mem_left (Construct.mem_walk_self page.root)
  obtain rfl := Except.ok.inj (declared.symm.trans rootMade)
  have spelled : whole.locals = locals := by
    obtain ⟨_, same, spelled⟩ := Except.bind_eq_ok.mp spelled
    obtain rfl := Except.ok.inj (derived.symm.trans same)
    obtain ⟨_, same, spelled⟩ := Except.bind_eq_ok.mp spelled
    obtain rfl := Except.ok.inj (declared.symm.trans same)
    exact Except.pure_eq_ok.mp spelled
  have printed : part.statements =
      [.closure "slot3", .result "Card(\"x\", gtmlSlot(slot3))"] := by
    obtain ⟨_, same, printed⟩ := Except.bind_eq_ok.mp printed
    obtain rfl := Except.ok.inj (derived.symm.trans same)
    obtain ⟨_, same, printed⟩ := Except.bind_eq_ok.mp printed
    obtain rfl := Except.ok.inj (made.symm.trans same)
    exact Except.pure_eq_ok.mp printed
  rw [named] at only
  exact ⟨catalog, events, functions, told, page, function, whole, parsed,
    compiled, member, only, code, numbers, spelled, apart, writes plain,
    placeholder, part, depth, parameters, attributes, call, used, listed,
    printed, passes⟩

/-- A slot whose call an attribute gives is not declared for that. -/
theorem closure_not_declared :
    let files : List TemplateFile :=
      [⟨"card.html", "<p _component=\"Card\">\x7b\x7b title \x7d\x7d</p>"⟩,
        ⟨"page.html", "<div _component=\"Page\">" ++
          "<card title=\"\x7b\x7b gtmlSlot(slot2) \x7d\x7d\">" ++
          "<b _slot=\"body\">x</b></card></div>"⟩]
    ∃ catalog events functions told page placeholder signatures part,
      parse files = .ok (catalog, events) ∧
      catalog.functions = .ok (functions, told) ∧
      page ∈ catalog.components ∧ placeholder ∈ page.root.walk ∧
      Signatures.ofCatalog catalog = .ok signatures ∧
      Declaration.ofConstruct signatures placeholder = .ok part ∧
      part.inner.map Declaration.call = ["gtmlSlot(slot2)"] ∧
      part.statements = [.result "Card(gtmlSlot(slot2))"] := by
  intro files
  have shape : (parse files).map (fun result =>
      (result.1.functions.map fun _ => (),
        result.1.components.any fun page => page.root.walk.any
          fun placeholder => (do
            let signatures ← Signatures.ofCatalog result.1
            let part ← Declaration.ofConstruct signatures placeholder
            return (part.inner.map Declaration.call, part.statements)) =
              .ok (["gtmlSlot(slot2)"],
                [.result "Card(gtmlSlot(slot2))"]))) =
      .ok (.ok (), true) := by decide +kernel
  obtain ⟨⟨catalog, events⟩, parsed, shape⟩ := Except.map_eq_ok.mp shape
  obtain ⟨compiled, found⟩ := Prod.mk.inj shape
  obtain ⟨⟨functions, told⟩, compiled, _⟩ := Except.map_eq_ok.mp compiled
  simp only [List.any_eq_true, decide_eq_true_eq] at found
  obtain ⟨page, member, placeholder, walked, printed⟩ := found
  obtain ⟨signatures, derived, printed⟩ := Except.bind_eq_ok.mp printed
  obtain ⟨part, declared, printed⟩ := Except.bind_eq_ok.mp printed
  obtain ⟨calls, statements⟩ := Prod.mk.inj (Except.pure_eq_ok.mp printed)
  exact ⟨catalog, events, functions, told, page, placeholder, signatures,
    part, parsed, compiled, member, walked, derived, declared, calls,
    statements⟩

end Catalog

end Stencil
