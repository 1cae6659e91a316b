import Stencil.Proofs.Conversions
import Stencil.Proofs.Mentions

namespace Stencil

open Text

/-! A parameter is a text, a truth value or a slice. -/

inductive WellTyped : String → Prop
  | string : WellTyped "string"
  | bool : WellTyped "bool"
  | slice {type : String} {element : List Char}
      (spelled : type.toList = '[' :: ']' :: element)
      (some : element ≠ []) : WellTyped type

theorem WellTyped.ne_int {type : String} (typed : WellTyped type) :
    type ≠ "int" := by
  cases typed with
  | string | bool => decide
  | slice spelled _ =>
      rintro rfl
      cases spelled

def Signatures.WellTyped (signatures : Signatures) : Prop :=
  ∀ entry ∈ signatures.entries, ∀ parameter ∈ entry.parameters,
    Stencil.WellTyped parameter.type

def Signatures.Typed (P : String → Prop) (signatures : Signatures) : Prop :=
  ∀ entry ∈ signatures.entries, ∀ parameter ∈ entry.parameters, P parameter.type

def Use.Typed (P : String → Prop) (use : Use) : Prop :=
  ∀ type, use.type = some type → P type

theorem Collects.forall_mem {α β : Type} {contributes : α → List β → Prop}
    {items : List α} {results : List β}
    (collects : Collects contributes items results) {P : β → Prop}
    (each : ∀ item ∈ items, ∀ part, contributes item part → ∀ result ∈ part,
      P result) :
    ∀ result ∈ results, P result := by
  induction collects with
  | nil => exact List.forall_mem_nil _
  | cons here _ induction =>
      obtain ⟨first, later⟩ := List.forall_mem_cons.mp each
      exact List.forall_mem_append.mpr ⟨first _ here, induction later⟩

namespace Construct

def LoopsTyped (P : String → Prop) (root : Construct) : Prop :=
  ∀ construct ∈ root.walk, ∀ item collection type,
    construct.kind = .loop item collection type → P type

section Uses

variable {P : String → Prop} {callees : Signatures} {uses : List Use}

theorem MarkerUses.typed (string : P "string") {marker : Marker}
    (used : MarkerUses marker uses) :
    ∀ use ∈ uses, use.Typed P := by
  cases used with
  | declared _ =>
      rw [List.forall_mem_singleton]
      rintro _ ⟨⟩
      exact string
  | silent _ => exact List.forall_mem_nil _

theorem Forwards.typed (string : P "string") (typed : callees.Typed P)
    {target argument : String} {type : Option String}
    (forwards : Forwards callees target argument type) (name : String) :
    (⟨name, type⟩ : Use).Typed P := by
  cases forwards with
  | bound known found =>
      rintro _ ⟨⟩
      exact typed _ (Signatures.mem_of_get? known) _
        (Parameter.mem_of_find? found)
  | unbound _ _ =>
      rintro _ ⟨⟩
      exact string
  | unknown _ =>
      intro type told
      cases told

theorem ArgumentUses.typed (string : P "string") (typed : callees.Typed P)
    {target : String} {argument : Argument}
    (used : ArgumentUses callees target argument uses) :
    ∀ use ∈ uses, use.Typed P := by
  cases used with
  | whole _ _ forwards =>
      rw [List.forall_mem_singleton]
      exact forwards.typed string typed _
  | mixed _ inside =>
      exact inside.forall_mem fun _ _ _ => MarkerUses.typed string

theorem CallUses.typed (string : P "string") (typed : callees.Typed P)
    {kind : Kind} (used : CallUses callees kind uses) :
    ∀ use ∈ uses, use.Typed P := by
  cases used with
  | call passed =>
      exact passed.forall_mem fun _ _ _ => ArgumentUses.typed string typed
  | plain _ => exact List.forall_mem_nil _

theorem DirectiveUses.typed (bool : P "bool") {kind : Kind}
    (loops : ∀ item collection type, kind = .loop item collection type → P type)
    (used : DirectiveUses kind uses) : ∀ use ∈ uses, use.Typed P := by
  cases used with
  | conditional _ | alternative _ =>
      rw [List.forall_mem_singleton]
      rintro _ ⟨⟩
      exact bool
  | loop item collection type =>
      rw [List.forall_mem_singleton]
      rintro _ ⟨⟩
      exact loops item collection type rfl
  | component _ | placeholder _ _ | slot _ => exact List.forall_mem_nil _

theorem Uses.typed (string : P "string") (bool : P "bool")
    (typed : callees.Typed P) {root : Construct} (loops : root.LoopsTyped P)
    (used : root.Uses callees uses) :
    ∀ use ∈ uses, use.Typed P := by
  obtain ⟨first, second⟩ := used
  refine List.forall_mem_append.mpr ⟨first.forall_mem ?_, second.forall_mem ?_⟩
  · rintro _ _ _ ⟨markers, call⟩ use member
    rcases List.mem_append.mp (List.mem_of_mem_filter member) with own | passed
    · exact markers.forall_mem (fun _ _ _ => MarkerUses.typed string) use own
    · exact call.typed string typed use passed
  · rintro ⟨around, construct⟩ placed _ ⟨directive⟩ use member
    have walked : construct ∈ root.walk := by
      rw [← lineages_map_snd root []]
      exact List.mem_map_of_mem placed
    exact directive.typed bool (loops _ walked) use
      (List.mem_of_mem_filter (List.mem_of_mem_filter member))

end Uses

end Construct

theorem Parameter.typed_ofConstruct {P : String → Prop} (string : P "string")
    (bool : P "bool") {callees : Signatures} (typed : callees.Typed P)
    {root : Construct} (loops : root.LoopsTyped P) {parameters : List Parameter}
    (derived : ofConstruct callees root = .ok parameters) :
    ∀ parameter ∈ parameters, P parameter.type := by
  have used : root.Uses callees _ := Construct.uses_iff.mpr rfl
  rcases ofConstruct_of_uses used with ⟨_, same⟩ | ⟨_, failed, _⟩
  · obtain rfl := Except.ok.inj (same.symm.trans derived)
    intro parameter member
    rcases List.mem_append.mp (mem_of_mem_firsts member) with told | untold
    · obtain ⟨use, listed, found⟩ := List.mem_filterMap.mp told
      obtain ⟨type, known, rfl⟩ := Option.map_eq_some_iff.mp found
      exact used.typed string bool typed loops use listed type known
    · obtain ⟨use, _, found⟩ := List.mem_filterMap.mp untold
      unfold Use.untyped? at found
      split at found
      · obtain rfl := Option.some.inj found
        exact string
      · cases found
  · cases failed.symm.trans derived

theorem Signatures.Derivation.typed {P : String → Prop} (string : P "string")
    (bool : P "bool") {catalog : Catalog} {signatures : Signatures}
    (derivation : Derivation catalog signatures)
    (loops : ∀ component ∈ catalog.components, component.root.LoopsTyped P) :
    signatures.Typed P := by
  -- Types are handed on from callees to callers, and a signature is derived
  -- from earlier ones, also where calls lead back.
  induction derivation with
  | empty => exact List.forall_mem_nil _
  | insert _ member _ derived _ induction =>
      refine List.forall_mem_append.mpr ⟨induction, ?_⟩
      rw [List.forall_mem_singleton]
      exact Parameter.typed_ofConstruct string bool induction (loops _ member)
        derived

theorem Signatures.Derivation.wellTyped {catalog : Catalog}
    {signatures : Signatures} (derivation : Derivation catalog signatures)
    (loops : ∀ component ∈ catalog.components,
      component.root.LoopsTyped Stencil.WellTyped) :
    signatures.WellTyped :=
  derivation.typed .string .bool loops

theorem Scope.loop_typed {scope : Scope} {attr : Attribute}
    {item collection type : String}
    (read : scope.loop attr = .ok (.loop item collection type)) :
    WellTyped type := by
  unfold loop at read
  split at read
  · split at read
    · split at read
      · rename_i slice
        cases read
        obtain ⟨begins, long⟩ := (Bool.and_eq_true _ _).mp slice
        obtain ⟨element, spelled⟩ := List.isPrefixOf_iff_prefix.mp begins
        refine .slice spelled.symm ?_
        rintro rfl
        rw [← spelled] at long
        exact absurd long (by decide)
      · cases read
    · cases read
  · cases read

theorem Construct.BuiltFrom.loop_typed {scope : Scope} {element : Element}
    {construct : Construct} (built : BuiltFrom scope element construct)
    (item collection type : String)
    (kind : construct.kind = .loop item collection type) : WellTyped type := by
  obtain ⟨_, classified⟩ := built.classified
  rw [kind] at classified
  cases classified with
  | loop _ value => exact Scope.loop_typed value

theorem Text.not_mem_dot_of_isIdentifier {name : String}
    (identifier : isIdentifier name) :
    '.' ∉ name.toList := by
  intro member
  have part := List.all_eq_true.mp (spelled_of_isIdentifier identifier) '.'
    member
  exact absurd part (by decide)

/-- A conversion that may treat numbers for numeric parameters as it likes. -/
def Conversion.SameButInts (convert : Conversion) : Prop :=
  ∀ parameter value, (∀ text,
    ¬ (parameter.type = "int" ∧ value = .literal .int text)) →
    convert parameter value = parameter.convert value

namespace Catalog

variable {files : List TemplateFile} {catalog : Catalog} {events : List Event}

/-- The parameters of every signature have identifiers of their own for names
and are texts, truth values or slices, so nothing depends on how a number is
converted for a numeric parameter. -/
theorem signatures_well_formed (parsed : parse files = .ok (catalog, events))
    {signatures : Signatures}
    (derived : Signatures.ofCatalog catalog = .ok signatures) :
    (∀ entry ∈ signatures.entries, (entry.parameters.map Parameter.name).Nodup ∧
      ∀ parameter ∈ entry.parameters, isIdentifier parameter.name ∧
        '.' ∉ parameter.name.toList ∧ WellTyped parameter.type) ∧
    ∀ convert : Conversion, convert.SameButInts →
      catalog.functions convert = catalog.functions := by
  have made : ∀ component ∈ catalog.components,
      ∀ construct ∈ component.root.walk,
      ∃ scope element, Construct.BuiltFrom scope element construct := by
    intro component member construct walked
    obtain ⟨_, _, _, _, _, _, built, _⟩ := exists_builtFrom parsed member walked
    exact ⟨_, _, built⟩
  obtain ⟨derivation, _⟩ := Signatures.derivation_of_ofCatalog derived
  have typed : signatures.WellTyped := by
    apply derivation.wellTyped
    intro component member construct walked
    obtain ⟨_, _, built⟩ := made component member construct walked
    exact built.loop_typed
  constructor
  · intro entry listed
    obtain ⟨callees, _, _, component, member, _, own, _⟩ :=
      derivation.exists_callees listed
    refine ⟨Parameter.nodup_ofConstruct own, ?_⟩
    intro parameter inside
    have identifier : isIdentifier parameter.name :=
      ((Parameter.mem_names_ofConstruct own).mp
        (List.mem_map_of_mem inside)).isIdentifier
        (made component member)
    exact ⟨identifier, not_mem_dot_of_isIdentifier identifier,
      typed entry listed parameter inside⟩
  · intro convert same
    refine Conversion.functions_eq derived ?_
    intro entry listed parameter inside value
    apply same
    rintro text ⟨int, _⟩
    exact (typed entry listed parameter inside).ne_int int

theorem signatures_well_formed_cycle :
    let files : List TemplateFile :=
      [⟨"page.html", "<p _component=\"Page\">\x7b\x7b size \x7d\x7d" ++
          "<rows All=\"\x7b\x7b items \x7d\x7d\" open></rows></p>"⟩,
        ⟨"rows.html",
          "<ul _component=\"Rows\"><li _for=\"row of all []Row\">a</li>" ++
          "<b _if=\"open\"><page size=\"3\" items=\"\x7b\x7b all \x7d\x7d\">" ++
          "</page></b></ul>"⟩]
    let convert : Conversion := fun parameter value =>
      if parameter.type = "int" ∧ value = .literal .int "3" then
        .error .emptyValue
      else parameter.convert value
    ∃ catalog events signatures functions told,
      parse files = .ok (catalog, events) ∧
      Signatures.ofCatalog catalog = .ok signatures ∧
      signatures.entries = [⟨"Rows", [⟨"all", "[]Row"⟩, ⟨"open", "bool"⟩]⟩,
        ⟨"Page", [⟨"size", "string"⟩, ⟨"items", "[]Row"⟩]⟩] ∧
      (∀ entry ∈ signatures.entries, ∀ parameter ∈ entry.parameters,
        WellTyped parameter.type) ∧
      catalog.functions = .ok (functions, told) ∧
      functions.map GeneratedFunction.name = ["Page", "Rows"] ∧
      convert.SameButInts ∧
      catalog.functions convert = .ok (functions, told) := by
  intro files convert
  let entries : List Signature :=
    [⟨"Rows", [⟨"all", "[]Row"⟩, ⟨"open", "bool"⟩]⟩,
    ⟨"Page", [⟨"size", "string"⟩, ⟨"items", "[]Row"⟩]⟩]
  have shape : (parse files).map (fun result =>
      (decide (Signatures.ofCatalog result.1 = .ok ⟨entries⟩),
        result.1.functions.map fun made => made.1.map GeneratedFunction.name)) =
      .ok (true, .ok ["Page", "Rows"]) := by decide +kernel
  obtain ⟨⟨catalog, events⟩, parsed, shape⟩ := Except.map_eq_ok.mp shape
  obtain ⟨derived, compiled⟩ := Prod.mk.inj shape
  obtain ⟨⟨functions, told⟩, compiled, names⟩ := Except.map_eq_ok.mp compiled
  have same : convert.SameButInts := by
    intro parameter value other
    exact if_neg (other "3")
  obtain ⟨formed, alike⟩ :=
    signatures_well_formed parsed (of_decide_eq_true derived)
  exact ⟨catalog, events, ⟨entries⟩, functions, told, parsed,
    of_decide_eq_true derived, rfl,
    fun entry listed parameter inside =>
      ((formed entry listed).2 parameter inside).2.2, compiled,
    names, same, (alike convert same).trans compiled⟩

end Catalog

end Stencil
