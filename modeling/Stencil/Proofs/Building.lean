import Stencil.Construct.Build
import Stencil.Proofs.Markers
import Stencil.Proofs.Trees

namespace Stencil

open Text

/-! What a construct that was built says about the element it was built from. -/

theorem Directive.attribute?_of_of? {element : Element} {directive : Directive}
    {attr : Attribute}
    (found : Directive.of? element = some (directive, attr)) :
    element.attribute? directive.name = some attr := by
  obtain ⟨candidate, _, carried⟩ := List.exists_of_findSome?_eq_some found
  obtain ⟨same, carries, equal⟩ := Option.map_eq_some_iff.mp carried
  obtain ⟨rfl, rfl⟩ := Prod.mk.inj equal
  exact carries

namespace Scope

/-- How an element comes to be a construct of its kind: by its first directive,
or by its tag. -/
inductive Classified (scope : Scope) (element : Element) (isRoot : Bool) :
    Construct.Kind → Prop
  | component {attr : Attribute} {name : String} (root : isRoot)
      (directive : Directive.of? element = some (.component, attr))
      (value : scope.word attr isIdentifier = .ok name) :
      Classified scope element isRoot (.component name)
  | loop {attr : Attribute} {item collection type : String}
      (directive : Directive.of? element = some (.loop, attr))
      (value : scope.loop attr = .ok (.loop item collection type)) :
      Classified scope element isRoot (.loop item collection type)
  | conditional {attr : Attribute} {condition : String}
      (directive : Directive.of? element = some (.conditional, attr))
      (value : scope.word attr isPath = .ok condition) :
      Classified scope element isRoot (.conditional condition)
  | alternative {attr : Attribute} {condition : String}
      (directive : Directive.of? element = some (.alternative, attr))
      (value : scope.word attr isPath = .ok condition) :
      Classified scope element isRoot (.alternative condition)
  | placeholder {attr : Attribute} {name target : String}
      {arguments : List Argument}
      (directive : Directive.of? element = some (.placeholder, attr))
      (value : scope.word attr isIdentifier = .ok name)
        (known : scope.target? name = some target)
      (passed : scope.arguments element = .ok arguments) :
      Classified scope element isRoot (.placeholder target arguments)
  | call {target : String} {arguments : List Argument}
      (plain : Directive.of? element = none)
      (known : scope.target? element.name = some target)
      (passed : scope.arguments element = .ok arguments) :
      Classified scope element isRoot (.placeholder target arguments)
  | slot {attr : Attribute} {name : String}
      (directive : Directive.of? element = some (.slot, attr))
      (value : scope.word attr isIdentifier = .ok name) :
      Classified scope element isRoot (.slot name)

theorem loop_ok {scope : Scope} {attr : Attribute} {kind : Construct.Kind}
    (read : scope.loop attr = .ok kind) :
    ∃ item collection type, kind = .loop item collection type := by
  unfold loop at read
  split at read
  · rename_i item preposition collection type _
    split at read
    · split at read
      · exact ⟨item, collection, type, (Except.ok.inj read).symm⟩
      · cases read
    · cases read
  · cases read

theorem classified_of_kind? {scope : Scope} {element : Element} {isRoot : Bool}
    {kind : Construct.Kind}
    (classified : scope.kind? element isRoot = .ok (some kind)) :
    scope.Classified element isRoot kind := by
  unfold kind? at classified
  cases directive : Directive.of? element with
  | none =>
      simp only [directive] at classified
      split at classified
      · cases classified
      · rename_i target known
        obtain ⟨found, placed, same⟩ := Except.map_eq_ok.mp classified
        obtain ⟨arguments, passed, rfl⟩ := Except.map_eq_ok.mp placed
        cases same
        exact .call directive known passed
  | some pair =>
      obtain ⟨which, attr⟩ := pair
      cases which with
      | component =>
          simp only [directive] at classified
          split at classified
          · rename_i root
            obtain ⟨name, value, same⟩ := Except.map_eq_ok.mp classified
            cases same
            exact .component root directive value
          · cases classified
      | loop =>
          simp only [directive] at classified
          obtain ⟨found, value, same⟩ := Except.map_eq_ok.mp classified
          cases same
          obtain ⟨item, collection, type, rfl⟩ := loop_ok value
          exact .loop directive value
      | conditional =>
          simp only [directive] at classified
          obtain ⟨condition, value, same⟩ := Except.map_eq_ok.mp classified
          cases same
          exact .conditional directive value
      | alternative =>
          simp only [directive] at classified
          obtain ⟨condition, value, same⟩ := Except.map_eq_ok.mp classified
          cases same
          exact .alternative directive value
      | placeholder =>
          simp only [directive] at classified
          obtain ⟨name, value, classified⟩ := Except.bind_eq_ok.mp classified
          split at classified
          · cases classified
          · rename_i target known
            obtain ⟨found, placed, same⟩ := Except.map_eq_ok.mp classified
            obtain ⟨arguments, passed, rfl⟩ := Except.map_eq_ok.mp placed
            cases same
            exact .placeholder directive value known passed
      | slot =>
          simp only [directive] at classified
          obtain ⟨name, value, same⟩ := Except.map_eq_ok.mp classified
          cases same
          exact .slot directive value

theorem word_ok {scope : Scope} {attr : Attribute} {valid : String → Bool}
    {value : String} (read : scope.word attr valid = .ok value) :
    value = trimmed attr.text ∧ valid value := by
  unfold word at read
  dsimp only at read
  split at read
  · cases read
  · split at read
    · rename_i accepted
      obtain rfl := Except.ok.inj read
      exact ⟨rfl, accepted⟩
    · cases read

theorem Classified.component_of_attribute {scope : Scope} {element : Element}
    {isRoot : Bool} {kind : Construct.Kind}
    (classified : scope.Classified element isRoot kind)
    (declares : (element.attribute? Directive.component.name).isSome) :
    ∃ name, kind = .component name ∧
      Construct.declaredName? element = some name := by
  obtain ⟨carried, carries⟩ := Option.isSome_iff_exists.mp declares
  have first : Directive.of? element = some (.component, carried) := by
    simp [Directive.of?, Directive.all, carries]
  cases classified with
  | component _ directive value =>
      refine ⟨_, rfl, ?_⟩
      rw [Construct.declaredName?, Directive.attribute?_of_of? directive,
        Option.map_some, (word_ok value).1]
  | loop directive | conditional directive | alternative directive
  | placeholder directive
  | slot directive => cases first.symm.trans directive
  | call plain => cases first.symm.trans plain

end Scope

namespace Construct

namespace Builder

variable {α β : Type} {before after : Progress}

theorem bind_eq_ok {first : Builder α} {next : α → Builder β} {result : β} :
    (first >>= next) before = .ok (result, after) ↔
      ∃ value middle, first before = .ok (value, middle) ∧
        next value middle = .ok (result, after) := by
  constructor
  · intro run
    obtain ⟨⟨value, middle⟩, ran, run⟩ := Except.bind_eq_ok.mp run
    exact ⟨value, middle, ran, run⟩
  · rintro ⟨value, middle, ran, run⟩
    exact Except.bind_eq_ok.mpr ⟨⟨value, middle⟩, ran, run⟩

theorem lift_eq_ok {step : Except TemplateError α} {result : α} :
    (liftM step : Builder α) before = .ok (result, after) ↔
    step = .ok result ∧ before = after := by
  cases step with
  | error problem =>
      simp only [reduceCtorEq, false_and, iff_false]
      intro run
      cases run
  | ok value =>
      constructor
      · intro run
        cases run
        exact ⟨rfl, rfl⟩
      · rintro ⟨same, rfl⟩
        cases same
        rfl

theorem pure_eq_ok {value result : α} :
    (pure value : Builder α) before = .ok (result, after) ↔
    value = result ∧ before = after := by
  constructor
  · intro run
    cases run
    exact ⟨rfl, rfl⟩
  · rintro ⟨rfl, rfl⟩
    rfl

end Builder

def Kind.kept (kind : Kind) (inner : List Construct) : List Construct :=
  match kind with
  | .placeholder _ _ => inner.filter fun construct => construct.kind.isSlot
  | _ => inner

theorem Kind.kept_sublist (kind : Kind) (inner : List Construct) :
    (kind.kept inner).Sublist inner := by
  cases kind with
  | placeholder target arguments => exact List.filter_sublist
  | component | loop | conditional | alternative | slot =>
      exact List.Sublist.refl _

theorem Kind.kept_of_plain {kind : Kind} (plain : kind.target? = none)
    (inner : List Construct) :
    kind.kept inner = inner := by
  cases kind with
  | placeholder target arguments => cases plain
  | component | loop | conditional | alternative | slot => rfl

theorem Kind.isSlot_iff {kind : Kind} :
    kind.isSlot = true ↔ ∃ name, kind = .slot name := by
  cases kind with
  | slot name => exact ⟨fun _ => ⟨name, rfl⟩, fun _ => rfl⟩
  | component | loop | conditional | alternative | placeholder =>
      simp [Kind.isSlot]

theorem Kind.target?_eq_some {kind : Kind} {target : String} :
    kind.target? = some target ↔ ∃ arguments,
    kind = .placeholder target arguments := by
  cases kind with
  | placeholder name arguments => simp [Kind.target?]
  | component | loop | conditional | alternative | slot => simp [Kind.target?]

/-- What assembling a construct checks and puts into it. -/
structure Assembled (source : Source) (element : Element) (kind : Kind)
    (id : Nat) (inner : List Construct) (construct : Construct) : Prop where
  kind_eq : construct.kind = kind
  id_eq : construct.id = id
  span_eq : construct.span = element.span
  html : source.slice? element.span = some construct.html.toList
  children_eq : construct.children = kind.kept inner
  runs : kind.target? = none →
    runsBetween source element.span.start element.span.stop inner =
      .ok construct.runs
  no_runs : kind.target? ≠ none → construct.runs = []
  paired : unpaired? construct.children = none

theorem requirePairs_eq_ok {source : Source} {constructs : List Construct}
    {result : Unit} :
    requirePairs source constructs = .ok result ↔
    unpaired? constructs = none := by
  unfold requirePairs
  split <;> simp_all

def gaps (start stop : Nat) : List Construct → List Span
  | [] => [⟨start, stop⟩]
  | construct :: rest =>
      ⟨start, construct.span.start⟩ :: gaps construct.span.stop stop rest

theorem runsBetween_ok {source : Source} {start stop : Nat}
    {children : List Construct} {runs : List MarkedText}
    (read : runsBetween source start stop children = .ok runs) :
    List.Forall₂ (fun gap run => source.marked gap .text = .ok run)
      (gaps start stop children)
      runs := by
  induction children generalizing start runs with
  | nil =>
      rw [runsBetween] at read
      obtain ⟨run, marked, read⟩ := Except.bind_eq_ok.mp read
      obtain rfl := Except.pure_eq_ok.mp read
      exact .cons marked .nil
  | cons child rest induction =>
      rw [runsBetween] at read
      obtain ⟨run, marked, read⟩ := Except.bind_eq_ok.mp read
      obtain ⟨runs, others, read⟩ := Except.bind_eq_ok.mp read
      obtain rfl := Except.pure_eq_ok.mp read
      exact .cons marked (induction others)

section Inversion

variable {source : Source} {element : Element} {kind : Kind} {id : Nat}
  {inner : List Construct} {construct : Construct} {before after : Progress}

theorem passSlots_ok {target : String} {slots : List Construct}
    (run : passSlots source element target inner before = .ok (slots, after)) :
    slots = inner.filter fun construct => construct.kind.isSlot := by
  unfold passSlots at run
  obtain ⟨outside, middle, _, run⟩ := Builder.bind_eq_ok.mp run
  obtain ⟨told, middle, _, run⟩ := Builder.bind_eq_ok.mp run
  exact (Builder.pure_eq_ok.mp run).1.symm

theorem assemble_ok
    (run : assemble source element kind id inner before =
      .ok (construct, after)) :
    Assembled source element kind id inner construct := by
  unfold assemble at run
  split at run
  · rename_i target arguments
    obtain ⟨slots, _, passed, run⟩ := Builder.bind_eq_ok.mp run
    obtain ⟨_, _, chosen, run⟩ := Builder.bind_eq_ok.mp run
    obtain ⟨rfl, rfl⟩ := Builder.pure_eq_ok.mp chosen
    obtain ⟨_, _, paired, run⟩ := Builder.bind_eq_ok.mp run
    obtain ⟨html, _, sliced, run⟩ := Builder.bind_eq_ok.mp run
    obtain ⟨rfl, _⟩ := Builder.pure_eq_ok.mp run
    have kept := passSlots_ok passed
    have pairs := requirePairs_eq_ok.mp (Builder.lift_eq_ok.mp paired).1
    have spelled := Source.slice_eq_ok.mp (Builder.lift_eq_ok.mp sliced).1
    exact ⟨rfl, rfl, rfl,
      by rw [String.toList_ofList]; exact spelled, kept, by simp [Kind.target?],
      fun _ => rfl, pairs⟩
  · rename_i plain
    obtain ⟨runs, _, read, run⟩ := Builder.bind_eq_ok.mp run
    obtain ⟨_, _, chosen, run⟩ := Builder.bind_eq_ok.mp run
    obtain ⟨rfl, rfl⟩ := Builder.pure_eq_ok.mp chosen
    obtain ⟨_, _, paired, run⟩ := Builder.bind_eq_ok.mp run
    obtain ⟨html, _, sliced, run⟩ := Builder.bind_eq_ok.mp run
    obtain ⟨rfl, _⟩ := Builder.pure_eq_ok.mp run
    have pairs := requirePairs_eq_ok.mp (Builder.lift_eq_ok.mp paired).1
    have spelled := Source.slice_eq_ok.mp (Builder.lift_eq_ok.mp sliced).1
    refine ⟨rfl, rfl, rfl, by rw [String.toList_ofList]; exact spelled, ?_,
      fun _ => (Builder.lift_eq_ok.mp read).1, ?_, pairs⟩
    · cases kind with
      | placeholder target arguments =>
          exact absurd rfl (plain target arguments)
      | component | loop | conditional | alternative | slot => rfl
    · cases kind with
      | placeholder target arguments =>
          exact absurd rfl (plain target arguments)
      | component | loop | conditional | alternative | slot =>
          exact fun called => absurd rfl called

end Inversion

def ofElement (scope : Scope) (element : Element) (kind : Kind) :
    Builder Construct := do
  let id ← Builder.freshId
  let inner ← ofNodes scope element.children
  assemble scope.source element kind id inner

/-- A run of the builder on the element, wherever it stands, gives the
construct. -/
def BuiltFrom (scope : Scope) (element : Element) (construct : Construct) :
    Prop :=
  ∃ isRoot kind before after, scope.kind? element isRoot = .ok (some kind) ∧
    ofElement scope element kind before = .ok (construct, after)

section Runs

variable {scope : Scope} {element : Element} {construct : Construct}
  {before after : Progress}

theorem BuiltFrom.exists_assembled (built : BuiltFrom scope element construct) :
    ∃ isRoot id inner before after,
      scope.kind? element isRoot = .ok (some construct.kind) ∧
      ofNodes scope element.children before = .ok (inner, after) ∧
      Assembled scope.source element construct.kind id inner construct := by
  obtain ⟨isRoot, kind, before, after, classified, run⟩ := built
  unfold ofElement at run
  obtain ⟨id, _, _, run⟩ := Builder.bind_eq_ok.mp run
  obtain ⟨inner, _, collected, run⟩ := Builder.bind_eq_ok.mp run
  have assembled := assemble_ok run
  obtain rfl := assembled.kind_eq
  exact ⟨isRoot, id, inner, _, _, classified, collected, assembled⟩

theorem BuiltFrom.classified (built : BuiltFrom scope element construct) :
    ∃ isRoot, scope.Classified element isRoot construct.kind := by
  obtain ⟨isRoot, _, _, _, _, classified, _, _⟩ := built.exists_assembled
  exact ⟨isRoot, Scope.classified_of_kind? classified⟩

theorem BuiltFrom.slots_of_placeholder
    (built : BuiltFrom scope element construct)
    (called : construct.kind.target? ≠ none) :
    ∀ child ∈ construct.children, child.kind.isSlot := by
  obtain ⟨_, _, _, _, _, _, _, assembled⟩ := built.exists_assembled
  intro child member
  rw [assembled.children_eq] at member
  cases kind : construct.kind with
  | placeholder target arguments =>
      rw [kind] at member
      exact (List.mem_filter.mp member).2
  | component | loop | conditional | alternative | slot =>
      exact absurd (kind ▸ rfl) called

theorem BuiltFrom.arguments_of_placeholder
    (built : BuiltFrom scope element construct) {target : String}
    {arguments : List Argument}
    (kind : construct.kind = .placeholder target arguments) :
    scope.arguments element = .ok arguments := by
  obtain ⟨isRoot, classified⟩ := built.classified
  rw [kind] at classified
  cases classified with
  | placeholder _ _ _ passed => exact passed
  | call _ _ passed => exact passed

theorem BuiltFrom.span_eq (built : BuiltFrom scope element construct) :
    construct.span = element.span := by
  obtain ⟨_, _, _, _, _, _, _, assembled⟩ := built.exists_assembled
  exact assembled.span_eq

theorem BuiltFrom.html (built : BuiltFrom scope element construct) :
    scope.source.slice? construct.span = some construct.html.toList := by
  obtain ⟨_, _, _, _, _, _, _, assembled⟩ := built.exists_assembled
  rw [assembled.span_eq]
  exact assembled.html

theorem BuiltFrom.runs_marked (built : BuiltFrom scope element construct) :
    ∀ run ∈ construct.runs,
      ∃ gap ∈ gaps construct.span.start construct.span.stop construct.children,
        scope.source.marked gap .text = .ok run := by
  obtain ⟨_, _, inner, _, _, _, _, assembled⟩ := built.exists_assembled
  intro run listed
  by_cases plain : construct.kind.target? = none
  · rw [assembled.span_eq, assembled.children_eq, Kind.kept_of_plain plain]
    exact (runsBetween_ok (assembled.runs plain)).exists_of_mem_right listed
  · rw [assembled.no_runs plain] at listed
    cases listed

theorem ofNode_ok {constructs : List Construct}
    (run : ofNode scope element.node before = .ok (constructs, after)) :
    (scope.kind? element false = .ok none ∧
        ofNodes scope element.children before = .ok (constructs, after)) ∨
      ∃ kind construct, scope.kind? element false = .ok (some kind) ∧
        constructs = [construct] ∧
        BuiltFrom scope element construct := by
  rw [Element.node, ofNode] at run
  obtain ⟨kind, middle, lifted, run⟩ := Builder.bind_eq_ok.mp run
  obtain ⟨classified, rfl⟩ := Builder.lift_eq_ok.mp lifted
  cases kind with
  | none => exact .inl ⟨classified, run⟩
  | some kind =>
      obtain ⟨id, first, fresh, run⟩ := Builder.bind_eq_ok.mp run
      obtain ⟨inner, second, collected, run⟩ := Builder.bind_eq_ok.mp run
      obtain ⟨construct, third, assembled, run⟩ := Builder.bind_eq_ok.mp run
      obtain ⟨rfl, _⟩ := Builder.pure_eq_ok.mp run
      refine .inr ⟨kind, construct, classified, rfl, false, kind, before, third,
        classified, ?_⟩
      exact Builder.bind_eq_ok.mpr ⟨id, first, fresh,
        Builder.bind_eq_ok.mpr ⟨inner, second, collected, assembled⟩⟩

theorem ofNodes_cons_ok {node : Node} {rest : List Node}
    {constructs : List Construct}
    (run : ofNodes scope (node :: rest) before = .ok (constructs, after)) :
    ∃ first more middle, constructs = first ++ more ∧
      ofNode scope node before = .ok (first, middle) ∧
      ofNodes scope rest middle = .ok (more, after) := by
  rw [ofNodes] at run
  obtain ⟨first, middle, ran, run⟩ := Builder.bind_eq_ok.mp run
  obtain ⟨more, _, others, run⟩ := Builder.bind_eq_ok.mp run
  obtain ⟨rfl, rfl⟩ := Builder.pure_eq_ok.mp run
  exact ⟨first, more, middle, rfl, ran, others⟩

theorem build_ok {source : Source} {root : Element} {known : List String}
    {events : List Event}
    (built : build source root known = .ok (construct, events)) :
    BuiltFrom ⟨source, known, declaredName? root⟩ root construct := by
  unfold build at built
  obtain ⟨⟨found, progress⟩, run, built⟩ := Except.bind_eq_ok.mp built
  obtain ⟨rfl, _⟩ := Prod.mk.inj (Except.pure_eq_ok.mp built)
  unfold ofRoot at run
  obtain ⟨kind, middle, lifted, run⟩ := Builder.bind_eq_ok.mp run
  obtain ⟨classified, rfl⟩ := Builder.lift_eq_ok.mp lifted
  cases kind with
  | none => cases run
  | some kind => exact ⟨true, kind, _, _, classified, run⟩

end Runs

end Construct

end Stencil
