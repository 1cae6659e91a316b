import Stencil.Proofs.Outcome
import Stencil.Proofs.Trees
import Stencil.Signature.Occurrence

namespace Stencil

/-! The parameters of a component are the names that its constructs use where no
loop binds them, each with the one type that its uses give it. -/

/-- A use of a name, and the type that it gives to the name, if it gives one. -/
structure Use where
  name : String
  type : Option String
  deriving DecidableEq

namespace Use

def ofPair (pair : String × Option String) : Use :=
  ⟨pair.1, pair.2⟩

def typed? (use : Use) : Option Parameter :=
  use.type.map fun type => ⟨use.name, type⟩

def untyped? (use : Use) : Option Parameter :=
  match use.type with
  | none => some ⟨use.name, "string"⟩
  | some _ => none

end Use

def Occurrence.use (occurrence : Occurrence) : Use :=
  ⟨occurrence.name, occurrence.type⟩

/-- What each item contributes by the relation, in the order of the items. -/
inductive Collects {α β : Type} (contributes : α → List β → Prop) :
    List α → List β → Prop
  | nil : Collects contributes [] []
  | cons {item : α} {rest : List α} {first more : List β}
      (here : contributes item first)
      (behind : Collects contributes rest more) :
      Collects contributes (item :: rest) (first ++ more)

theorem Collects.iff_flatMap {α β : Type} {contributes : α → List β → Prop}
    {f : α → List β}
    (exact : ∀ item results, contributes item results ↔ results = f item)
    {items : List α} {results : List β} :
    Collects contributes items results ↔ results = items.flatMap f := by
  constructor
  · intro collects
    induction collects with
    | nil => rfl
    | cons here _ induction =>
        rw [(exact _ _).mp here, induction, List.flatMap_cons]
  · rintro rfl
    induction items with
    | nil => exact .nil
    | cons item rest induction => exact .cons ((exact _ _).mpr rfl) induction

theorem Collects.exists_part {α β : Type} {contributes : α → List β → Prop}
    {items : List α} {results : List β}
    (collects : Collects contributes items results) {item : α}
    (member : item ∈ items) :
    ∃ part, contributes item part ∧ part ⊆ results := by
  induction collects with
  | nil => cases member
  | cons here _ induction =>
      rcases List.mem_cons.mp member with rfl | later
      · exact ⟨_, here, List.subset_append_left _ _⟩
      · obtain ⟨part, contributed, inside⟩ := induction later
        exact ⟨part, contributed,
          List.Subset.trans inside (List.subset_append_right _ _)⟩

inductive Marker.Declares : Marker → String → Prop
  | rune {inner : Rune} (kind : inner.kind = .prop ∨ inner.kind = .slot) :
      Declares (.rune inner) inner.value
  | interpolation {inner : Interpolation}
      (bare : Text.isIdentifier inner.value) :
      Declares (.interpolation inner) inner.value

theorem Marker.declares_iff {marker : Marker} {name : String} :
    marker.Declares name ↔ marker.declared? = some name := by
  constructor
  · rintro (⟨kind | kind⟩ | bare)
    · simp [declared?, kind, Rune.Kind.declares]
    · simp [declared?, kind, Rune.Kind.declares]
    · simp [declared?, Interpolation.isBare, bare]
  · intro found
    cases marker with
    | rune inner =>
        obtain ⟨declares, rfl⟩ : inner.kind.declares ∧ inner.value = name := by
          simpa [declared?] using found
        refine .rune ?_
        cases kind : inner.kind <;> simp [kind, Rune.Kind.declares]
          at declares ⊢
    | interpolation inner =>
        obtain ⟨bare, rfl⟩ : inner.isBare ∧ inner.value = name := by
          simpa [declared?] using found
        exact .interpolation bare

namespace Construct

section Rules

variable (callees : Signatures)

inductive MarkerUses (marker : Marker) : List Use → Prop
  | declared {name : String} (declares : marker.Declares name) :
      MarkerUses marker [⟨name, some "string"⟩]
  | silent (undeclared : ∀ name, ¬ marker.Declares name) : MarkerUses marker []

/-- The type that a call gives to a name which is the whole value of an
argument. -/
inductive Forwards (target argument : String) : Option String → Prop
  | bound {parameters : List Parameter} {parameter : Parameter}
      (known : callees.get? target = some parameters)
      (found : Parameter.find? parameters argument = some parameter) :
      Forwards target argument (some parameter.type)
  | unbound {parameters : List Parameter}
      (known : callees.get? target = some parameters)
      (missing : Parameter.find? parameters argument = none) :
      Forwards target argument (some "string")
  | unknown (missing : callees.get? target = none) :
      Forwards target argument none

inductive ArgumentUses (target : String) (argument : Argument) : List Use → Prop
  | whole {marker : Marker} {name : String} {type : Option String}
      (value : argument.value = .expression marker)
        (declares : marker.Declares name)
      (forwards : Forwards callees target argument.name type) :
      ArgumentUses target argument [⟨name, type⟩]
  | mixed {uses : List Use}
      (other : ∀ marker name,
        argument.value = .expression marker → ¬ marker.Declares name)
      (inside : Collects MarkerUses argument.value.markers uses) :
      ArgumentUses target argument uses

inductive CallUses : Kind → List Use → Prop
  | call {target : String} {arguments : List Argument} {uses : List Use}
      (passed : Collects (ArgumentUses callees target) arguments uses) :
      CallUses (.placeholder target arguments) uses
  | plain {kind : Kind} (none : kind.target? = none) : CallUses kind []

inductive DirectiveUses : Kind → List Use → Prop
  | conditional (condition : String) :
      DirectiveUses (.conditional condition) [⟨condition, some "bool"⟩]
  | alternative (condition : String) :
      DirectiveUses (.alternative condition) [⟨condition, some "bool"⟩]
  | loop (item collection type : String) :
      DirectiveUses (.loop item collection type) [⟨collection, some type⟩]
  | component (name : String) : DirectiveUses (.component name) []
  | placeholder (target : String) (arguments : List Argument) :
      DirectiveUses (.placeholder target arguments) []
  | slot (name : String) : DirectiveUses (.slot name) []

end Rules

section Lineages

mutual
/-- A construct and all below it, each before what is inside it, with the
constructs around it from the outermost on. -/
def lineages (around : List Construct) :
    Construct → List (List Construct × Construct)
  | ⟨kind, id, span, html, runs, children⟩ =>
      (around, ⟨kind, id, span, html, runs, children⟩) ::
        forestLineages (around ++ [⟨kind, id, span, html, runs, children⟩])
          children

def forestLineages (around : List Construct) :
    List Construct → List (List Construct × Construct)
  | [] => []
  | construct :: rest => construct.lineages around ++ forestLineages around rest
end

def free (around : List Construct) (uses : List Use) : List Use :=
  uses.filter fun use => ∀ outer ∈ around, outer.kind.item? ≠ some use.name

variable (callees : Signatures)

/-- The item of a loop is bound in the loop's own markup. -/
inductive MarkupUses : List Construct × Construct → List Use → Prop
  | intro {around : List Construct} {construct : Construct}
  {own passed : List Use}
      (markers : Collects MarkerUses construct.markers own)
      (call : CallUses callees construct.kind passed) :
      MarkupUses (around, construct)
        (free (around ++ [construct]) (own ++ passed))

/-- The item of a loop is not bound in the loop's own collection. A dotted name
reads a part of something that is declared elsewhere. -/
inductive HeadUses : List Construct × Construct → List Use → Prop
  | intro {around : List Construct} {construct : Construct} {uses : List Use}
      (directive : DirectiveUses construct.kind uses) :
      HeadUses (around, construct)
        ((free around uses).filter fun use => '.' ∉ use.name.toList)

/-- All uses in a tree: those of markers and arguments come first, then those of
directives. -/
inductive Uses (root : Construct) : List Use → Prop
  | intro {markup heads : List Use}
      (first : Collects (MarkupUses callees) (root.lineages []) markup)
      (second : Collects HeadUses (root.lineages []) heads) :
        Uses root (markup ++ heads)

end Lineages

section Agreement

variable {callees : Signatures}

theorem markerUses_iff (marker : Marker) (uses : List Use) :
    MarkerUses marker uses ↔
    uses = marker.declared?.toList.map fun name => ⟨name, some "string"⟩ := by
  constructor
  · rintro (declares | undeclared)
    · rw [Marker.declares_iff.mp declares]
      rfl
    · rw [Option.eq_none_iff_forall_ne_some.mpr
        fun name found => undeclared name (Marker.declares_iff.mpr found)]
      rfl
  · rintro rfl
    cases found : marker.declared? with
    | none =>
        exact .silent fun name declares => by
          simp [Marker.declares_iff.mp declares] at found
    | some name => exact .declared (Marker.declares_iff.mpr found)

theorem markersUse_iff {markers : List Marker} {uses : List Use} :
    Collects MarkerUses markers uses ↔
    uses = (declaredStrings markers).map Use.ofPair := by
  rw [Collects.iff_flatMap markerUses_iff, declaredStrings,
    List.filterMap_eq_flatMap_toList, List.map_map, List.map_flatMap]
  rfl

theorem forwards_iff {target argument : String} {type : Option String} :
    Forwards callees target argument type ↔
    type = forwardedType callees target argument := by
  unfold forwardedType
  constructor
  · rintro (⟨known, found⟩ | ⟨known, missing⟩ | missing)
    · rw [known, Option.map_some, found]
    · rw [known, Option.map_some, missing]
    · rw [missing, Option.map_none]
  · rintro rfl
    cases known : callees.get? target with
    | none => exact .unknown known
    | some parameters =>
        cases found : Parameter.find? parameters argument with
        | none => simpa [found] using Forwards.unbound known found
        | some parameter => simpa [found] using Forwards.bound known found

theorem argumentNames_whole {target name : String} {argument : Argument}
    {marker : Marker} (value : argument.value = .expression marker)
    (declared : marker.declared? = some name) :
    argumentNames callees target argument =
      [(name, forwardedType callees target argument.name)] := by
  simp [argumentNames, value, declared]

theorem argumentNames_mixed {target : String} {argument : Argument}
    (other : ∀ marker name,
      argument.value = .expression marker → ¬ marker.Declares name) :
    argumentNames callees target argument =
      declaredStrings argument.value.markers := by
  cases value : argument.value with
  | expression marker =>
      have silent : marker.declared? = none :=
        Option.eq_none_iff_forall_ne_some.mpr
          fun name found =>
            other marker name value (Marker.declares_iff.mpr found)
      simp [argumentNames, value, silent, AttributeValue.markers,
        declaredStrings]
  | empty | literal | template => simp [argumentNames, value]

theorem argumentUses_iff (target : String) (argument : Argument)
    (uses : List Use) :
    ArgumentUses callees target argument uses ↔
      uses = (argumentNames callees target argument).map Use.ofPair := by
  constructor
  · rintro (⟨value, declares, forwards⟩ | ⟨other, inside⟩)
    · rw [argumentNames_whole value (Marker.declares_iff.mp declares),
        forwards_iff.mp forwards]
      rfl
    · rw [argumentNames_mixed other, markersUse_iff.mp inside]
  · rintro rfl
    by_cases whole : ∃ marker name,
      argument.value = .expression marker ∧ marker.Declares name
    · obtain ⟨marker, name, value, declares⟩ := whole
      rw [argumentNames_whole value (Marker.declares_iff.mp declares)]
      exact .whole value declares (forwards_iff.mpr rfl)
    · have other : ∀ marker name,
          argument.value = .expression marker → ¬ marker.Declares name :=
        fun marker name value declares => whole ⟨marker, name, value, declares⟩
      rw [argumentNames_mixed other]
      exact .mixed other (markersUse_iff.mpr rfl)

theorem callUses_iff {kind : Kind} {uses : List Use} :
    CallUses callees kind uses ↔
    uses = (match kind with
      | .placeholder target arguments =>
          arguments.flatMap (argumentNames callees target)
      | _ => []).map Use.ofPair := by
  have passes : ∀ target arguments,
      Collects (ArgumentUses callees target) arguments uses ↔
      uses = (arguments.flatMap (argumentNames callees target)).map
        Use.ofPair := by
    intro target arguments
    rw [Collects.iff_flatMap (argumentUses_iff target), List.map_flatMap]
  constructor
  · rintro (passed | none)
    · exact (passes _ _).mp passed
    · cases kind with
      | placeholder target arguments => cases none
      | component | loop | conditional | alternative | slot => rfl
  · intro uses_eq
    cases kind with
    | placeholder target arguments => exact .call ((passes _ _).mpr uses_eq)
    | component | loop | conditional | alternative | slot =>
        subst uses_eq
        exact .plain rfl

theorem directiveUses_iff {kind : Kind} {uses : List Use} :
    DirectiveUses kind uses ↔
    uses = (match kind with
      | .conditional condition | .alternative condition => [(condition, "bool")]
      | .loop _ collection type => [(collection, type)]
      | _ => []).map fun pair : String × String => ⟨pair.1, some pair.2⟩ := by
  constructor
  · rintro (_ | _ | _ | _ | _ | _) <;> rfl
  · rintro rfl
    cases kind <;> constructor

def items (around : List Construct) : List String :=
  (around.filterMap fun outer => outer.kind.item?).reverse

theorem items_concat (around : List Construct) (construct : Construct) :
    items (around ++ [construct]) =
      construct.kind.item?.toList ++ items around := by
  cases item : construct.kind.item? <;> simp [items, item]

theorem mem_items {around : List Construct} {name : String} :
    name ∈ items around ↔ ∃ outer ∈ around, outer.kind.item? = some name := by
  simp [items]

theorem markupUses_iff (lineage : List Construct × Construct)
    (uses : List Use) :
    MarkupUses callees lineage uses ↔
      uses = (lineage.2.markerOccurrences callees (items lineage.1)).map
        Occurrence.use := by
  obtain ⟨around, construct⟩ := lineage
  have kept : free (around ++ [construct])
      ((construct.declaredNames callees).map Use.ofPair) =
      (construct.markerOccurrences callees (items around)).map
        Occurrence.use := by
    unfold free markerOccurrences
    rw [List.filter_map, List.map_map]
    congr 1
    apply List.filter_congr
    rintro ⟨name, type⟩ _
    rw [Bool.eq_iff_iff, Function.comp_apply, decide_eq_true_iff]
    simp [mem_items, Use.ofPair, or_imp, forall_and]
  rw [← kept, declaredNames, List.map_append]
  constructor
  · rintro ⟨markers, call⟩
    obtain rfl := markersUse_iff.mp markers
    obtain rfl := callUses_iff.mp call
    rfl
  · rintro rfl
    exact .intro (markersUse_iff.mpr rfl) (callUses_iff.mpr rfl)

theorem headUses_iff (lineage : List Construct × Construct) (uses : List Use) :
    HeadUses lineage uses ↔
      uses = (lineage.2.directiveOccurrences (items lineage.1)).map
        Occurrence.use := by
  obtain ⟨around, construct⟩ := lineage
  have kept : ∀ used : List (String × String),
      (free around (used.map fun pair => ⟨pair.1, some pair.2⟩)).filter
        (fun use => '.' ∉ use.name.toList) =
      ((used.filter fun pair =>
        !pair.1.toList.contains '.' &&
            !(items around).contains pair.1).map fun pair =>
              (⟨pair.1, some pair.2, construct.html⟩ : Occurrence)).map
                  Occurrence.use := by
    intro used
    unfold free
    rw [List.filter_map, List.filter_map, List.filter_filter, List.map_map]
    congr 1
    apply List.filter_congr
    rintro ⟨name, type⟩ _
    rw [Bool.eq_iff_iff]
    simp [mem_items]
  have spelled :
      (construct.directiveOccurrences (items around)).map Occurrence.use = _ :=
    (kept _).symm
  rw [spelled]
  constructor
  · rintro ⟨directive⟩
    obtain rfl := directiveUses_iff.mp directive
    rfl
  · rintro rfl
    exact .intro (directiveUses_iff.mpr rfl)

mutual
theorem inScope_eq (construct : Construct) (around : List Construct) :
    construct.inScope (items around) =
      (construct.lineages around).map fun lineage =>
        (items lineage.1, lineage.2) := by
  obtain ⟨kind, id, span, html, runs, children⟩ := construct
  have inside :=
    forestInScope_eq children
      (around ++ [⟨kind, id, span, html, runs, children⟩])
  rw [items_concat] at inside
  rw [inScope, lineages, List.map_cons, inside]

theorem forestInScope_eq (constructs : List Construct)
    (around : List Construct) :
    forestInScope (items around) constructs =
      (forestLineages around constructs).map fun lineage =>
        (items lineage.1, lineage.2) := by
  cases constructs with
  | nil => rfl
  | cons construct rest =>
      rw [forestInScope, forestLineages, List.map_append,
        inScope_eq construct around, forestInScope_eq rest around]
end

theorem uses_iff {root : Construct} {uses : List Use} :
    Uses callees root uses ↔
    uses = (root.occurrences callees).map Occurrence.use := by
  have visible : root.inScope [] = (root.lineages []).map fun lineage =>
      (items lineage.1, lineage.2) := root.inScope_eq []
  have same : (root.occurrences callees).map Occurrence.use =
      ((root.lineages []).flatMap fun lineage =>
        (lineage.2.markerOccurrences callees (items lineage.1)).map
          Occurrence.use) ++
      (root.lineages []).flatMap fun lineage =>
        (lineage.2.directiveOccurrences (items lineage.1)).map
            Occurrence.use := by
    simp [occurrences, visible, List.flatMap_map, List.map_flatMap]
  rw [same]
  constructor
  · rintro ⟨first, second⟩
    rw [(Collects.iff_flatMap markupUses_iff).mp first,
      (Collects.iff_flatMap headUses_iff).mp second]
  · rintro rfl
    exact .intro ((Collects.iff_flatMap markupUses_iff).mpr rfl)
      ((Collects.iff_flatMap headUses_iff).mpr rfl)

end Agreement

section Forwarding

variable {callees : Signatures}

theorem mem_uses_of_forwarded {root : Construct} {uses : List Use}
    (used : root.Uses callees uses) {around : List Construct}
    {placeholder : Construct}
    (placed : (around, placeholder) ∈ root.lineages []) {target : String}
    {arguments : List Argument}
    (kind : placeholder.kind = .placeholder target arguments)
    {argument : Argument} (passed : argument ∈ arguments) {marker : Marker}
    {name : String} (value : argument.value = .expression marker)
    (declares : marker.Declares name)
    (unbound : ∀ outer ∈ around, outer.kind.item? ≠ some name)
    {type : Option String}
    (forwards : Forwards callees target argument.name type) :
    ⟨name, type⟩ ∈ uses := by
  cases used with
  | intro first second =>
      obtain ⟨part, marked, inside⟩ := first.exists_part placed
      apply List.mem_append_left
      apply inside
      cases marked with
      | intro markers call =>
          rw [kind] at call
          cases call with
          | plain none => cases none
          | call collected =>
              obtain ⟨given, contributed, within⟩ :=
                collected.exists_part passed
              have here : ⟨name, type⟩ ∈ given := by
                rw [(argumentUses_iff target argument given).mp contributed,
                  argumentNames_whole value (Marker.declares_iff.mp declares),
                  ← forwards_iff.mp forwards]
                exact List.mem_singleton.mpr rfl
              refine List.mem_filter.mpr
                ⟨List.mem_append_right _ (within here), ?_⟩
              simpa [or_imp, forall_and, kind, Kind.item?] using unbound

end Forwarding

section Visits

mutual
theorem lineages_map_snd (construct : Construct) (around : List Construct) :
    (construct.lineages around).map Prod.snd = construct.walk := by
  obtain ⟨kind, id, span, html, runs, children⟩ := construct
  rw [lineages, List.map_cons, forestLineages_map_snd children, walk_eq]

theorem forestLineages_map_snd (constructs around : List Construct) :
    (forestLineages around constructs).map Prod.snd =
      constructs.flatMap walk := by
  cases constructs with
  | nil => rfl
  | cons construct rest =>
      rw [forestLineages, List.map_append, lineages_map_snd construct,
        forestLineages_map_snd rest, List.flatMap_cons]
end

end Visits

end Construct

namespace Parameter

def firsts (parameters : List Parameter) : List Parameter :=
  parameters.eraseDupsBy fun later first => later.name == first.name

def Conflict (parameters : List Parameter) : Prop :=
  ∃ first ∈ parameters, ∃ second ∈ parameters,
    first.name = second.name ∧ first.type ≠ second.type

/-- The error names two types that the parameters give to one name. -/
def Reports (error : GenerationError) (parameters : List Parameter) : Prop :=
  ∃ name first second, error.cause = .conflictingTypes name first second ∧
    ⟨name, first⟩ ∈ parameters ∧ ⟨name, second⟩ ∈ parameters ∧ first ≠ second

theorem Reports.conflict {error : GenerationError} {parameters : List Parameter}
    (reports : Reports error parameters) : Conflict parameters := by
  obtain ⟨name, first, second, _, firstMember, secondMember, different⟩ :=
    reports
  exact ⟨_, firstMember, _, secondMember, rfl, different⟩

theorem Reports.mono {error : GenerationError}
    {parameters more : List Parameter} (reports : Reports error parameters)
    (subset : parameters ⊆ more) : Reports error more := by
  obtain ⟨name, first, second, cause, firstMember, secondMember, different⟩ :=
    reports
  exact ⟨name, first, second, cause, subset firstMember, subset secondMember,
    different⟩

section Firsts

theorem firsts_cons (first : Parameter) (rest : List Parameter) :
    firsts (first :: rest) =
      first :: firsts (rest.filter fun later => later.name != first.name) := by
  unfold firsts
  rw [List.eraseDupsBy_cons]
  congr 2
  apply List.filter_congr
  intro later _
  rw [Bool.eq_iff_iff]
  simp

theorem inductionByName {motive : List Parameter → Prop} (nil : motive [])
    (cons : ∀ first rest,
      motive (rest.filter fun later => later.name != first.name) →
      motive (first :: rest)) : ∀ parameters, motive parameters
  | [] => nil
  | first :: rest => cons first rest (inductionByName nil cons _)
termination_by parameters => parameters.length
decreasing_by
  exact Nat.lt_succ_of_le (List.length_filter_le _ rest)

variable {seen : List Parameter} {parameter : Parameter}

theorem firsts_append (upper lower : List Parameter) :
    firsts (upper ++ lower) =
      firsts upper ++ firsts (lower.filter fun parameter =>
        parameter.name ∉ upper.map name) := by
  induction upper using inductionByName generalizing lower with
  | nil => simp [firsts, List.eraseDupsBy, List.eraseDupsBy.loop]
  | cons first rest induction =>
      rw [List.cons_append, firsts_cons, List.filter_append, induction,
        firsts_cons, List.cons_append, List.filter_filter]
      congr 3
      apply List.filter_congr
      intro parameter _
      grind

theorem firsts_concat_of_mem (earlier : parameter.name ∈ seen.map name) :
    firsts (seen ++ [parameter]) = firsts seen := by
  rw [firsts_append, List.filter_singleton,
    decide_eq_false (not_not_intro earlier)]
  exact List.append_nil _

theorem firsts_concat_of_not_mem (new : parameter.name ∉ seen.map name) :
    firsts (seen ++ [parameter]) = firsts seen ++ [parameter] := by
  rw [firsts_append, List.filter_singleton, decide_eq_true new]
  rfl

theorem find?_firsts (seen : List Parameter) (name : String) :
    (firsts seen).find? (fun parameter => parameter.name == name) =
      seen.find? fun parameter => parameter.name == name := by
  induction seen using inductionByName with
  | nil => rfl
  | cons first rest induction =>
      rw [firsts_cons, List.find?_cons, List.find?_cons, induction]
      split
      · rfl
      · rename_i other
        rw [List.find?_filter]
        congr 1
        funext parameter
        grind

theorem mem_of_mem_firsts (member : parameter ∈ firsts seen) :
    parameter ∈ seen := by
  induction seen using inductionByName with
  | nil => exact member
  | cons first rest induction =>
      rw [firsts_cons] at member
      rcases List.mem_cons.mp member with rfl | later
      · exact List.mem_cons_self ..
      · exact List.mem_cons_of_mem _ (List.mem_of_mem_filter (induction later))

theorem nodup_firsts (seen : List Parameter) :
    ((firsts seen).map name).Nodup := by
  induction seen using inductionByName with
  | nil => exact List.nodup_nil
  | cons first rest induction =>
      rw [firsts_cons, List.map_cons, List.nodup_cons]
      refine ⟨?_, induction⟩
      intro member
      obtain ⟨later, kept, same⟩ := List.mem_map.mp member
      have other := (List.mem_filter.mp (mem_of_mem_firsts kept)).2
      simp [same] at other

theorem mem_firsts_of_agree (agree : ¬ Conflict seen)
    (member : parameter ∈ seen) :
    parameter ∈ firsts seen := by
  obtain ⟨first, found⟩ :
      ∃ first, seen.find? (fun other => other.name == parameter.name) =
      some first :=
        Option.isSome_iff_exists.mp
          (List.find?_isSome.mpr ⟨parameter, member, by simp⟩)
  have named : first.name = parameter.name := by
    simpa using List.find?_some found
  have typed : first.type = parameter.type := by
    by_contra different
    exact agree ⟨first, List.mem_of_find?_eq_some found, parameter, member,
      named, different⟩
  have same : first = parameter := by
    cases first
    cases parameter
    simp_all
  rw [← find?_firsts, same] at found
  exact List.mem_of_find?_eq_some found

end Firsts

section Folds

variable {seen : List Parameter} {occurrence : Occurrence} {type : String}

theorem conflict_concat {next : Parameter} : Conflict (seen ++ [next]) ↔
    Conflict seen ∨ ∃ first ∈ seen,
    first.name = next.name ∧ first.type ≠ next.type := by
  simp only [Conflict, List.mem_append, List.mem_singleton]
  constructor
  · rintro ⟨first, inFirst | rfl, second, inSecond | rfl, named, different⟩
    · exact .inl ⟨first, inFirst, second, inSecond, named, different⟩
    · exact .inr ⟨first, inFirst, named, different⟩
    · exact .inr ⟨second, inSecond, named.symm, different.symm⟩
    · exact absurd rfl different
  · rintro (⟨first, inFirst, second, inSecond, conflict⟩ |
      ⟨first, member, conflict⟩)
    · exact ⟨first, .inl inFirst, second, .inl inSecond, conflict⟩
    · exact ⟨first, .inl member, next, .inr rfl, conflict⟩

theorem addTyped_step (agree : ¬ Conflict seen)
    (typed : occurrence.type = some type) :
    let next := seen ++ [⟨occurrence.name, type⟩]
    (¬ Conflict next ∧ addTyped (firsts seen) occurrence = .ok (firsts next)) ∨
      ∃ error, addTyped (firsts seen) occurrence = .error error ∧
        Reports error next := by
  intro next
  simp only [addTyped, typed, find?_firsts]
  cases found : seen.find? fun parameter =>
    parameter.name == occurrence.name with
  | none =>
      have new : occurrence.name ∉ seen.map name := by simpa using found
      refine .inl ⟨?_, by rw [firsts_concat_of_not_mem new]⟩
      rw [conflict_concat]
      rintro (conflict | ⟨first, member, named, _⟩)
      · exact agree conflict
      · exact new (List.mem_map.mpr ⟨first, member, named⟩)
  | some first =>
      have member := List.mem_of_find?_eq_some found
      have named : first.name = occurrence.name := by
        simpa using List.find?_some found
      by_cases same : first.type = type
      · have earlier : occurrence.name ∈ seen.map name :=
          List.mem_map.mpr ⟨first, member, named⟩
        have kept : firsts next = firsts seen := firsts_concat_of_mem earlier
        refine .inl ⟨?_, by simp only [if_pos same, kept]⟩
        rw [conflict_concat]
        rintro (conflict | ⟨other, otherMember, otherNamed, different⟩)
        · exact agree conflict
        · exact agree ⟨other, otherMember, first, member,
            otherNamed.trans named.symm,
            fun equal => different (equal.trans same)⟩
      · refine .inr ⟨_, if_neg same, occurrence.name, first.type, type, rfl, ?_,
          by simp [next],
          same⟩
        rw [← named]
        exact List.mem_append_left _ member

theorem foldlM_addTyped (occurrences : List Occurrence)
    (agree : ¬ Conflict seen) :
    let all := seen ++ (occurrences.map Occurrence.use).filterMap Use.typed?
    (¬ Conflict all ∧
      occurrences.foldlM addTyped (firsts seen) = .ok (firsts all)) ∨
      ∃ error, occurrences.foldlM addTyped (firsts seen) = .error error ∧
        Reports error all := by
  induction occurrences generalizing seen with
  | nil => exact .inl ⟨by simpa using agree, by simp [pure, Except.pure]⟩
  | cons occurrence rest induction =>
      rw [List.foldlM_cons, List.map_cons]
      cases typed : occurrence.type with
      | none =>
          have passed : addTyped (firsts seen) occurrence =
              .ok (firsts seen) := by
            simp [addTyped, typed]
          rw [passed, List.filterMap_cons_none
            (by simp [Use.typed?, Occurrence.use, typed])]
          exact induction agree
      | some type =>
          rw [List.filterMap_cons_some (b := ⟨occurrence.name, type⟩)
            (by simp [Use.typed?, Occurrence.use, typed]),
            ← List.singleton_append,
            ← List.append_assoc]
          rcases addTyped_step agree typed with ⟨agree, added⟩ |
            ⟨error, failed, reports⟩
          · rw [added]
            exact induction agree
          · rw [failed]
            exact .inr ⟨error, rfl, reports.mono (List.subset_append_left _ _)⟩

theorem foldl_addUntyped (occurrences : List Occurrence) :
    occurrences.foldl addUntyped (firsts seen) =
      firsts (seen ++ occurrences.map fun occurrence =>
        ⟨occurrence.name, "string"⟩) := by
  induction occurrences generalizing seen with
  | nil => simp
  | cons occurrence rest induction =>
      have step : addUntyped (firsts seen) occurrence =
          firsts (seen ++ [⟨occurrence.name, "string"⟩]) := by
        have mentioned : (firsts seen).any (fun parameter => parameter.name ==
              occurrence.name) =
            decide (occurrence.name ∈ seen.map name) := by
          rw [← List.isSome_find?, find?_firsts, Bool.eq_iff_iff]
          simp
        by_cases earlier : occurrence.name ∈ seen.map name
        · rw [firsts_concat_of_mem earlier, addUntyped, mentioned]
          exact if_pos (decide_eq_true earlier)
        · rw [firsts_concat_of_not_mem earlier, addUntyped, mentioned]
          exact if_neg (by simpa using earlier)
      rw [List.foldl_cons, step, induction, List.map_cons, List.append_assoc,
        List.singleton_append]

end Folds

section Exactness

variable {callees : Signatures} {root : Construct} {uses : List Use}

theorem map_untyped (occurrences : List Occurrence) :
    (occurrences.filter fun occurrence => occurrence.type.isNone).map
      (fun occurrence => (⟨occurrence.name, "string"⟩ : Parameter)) =
        (occurrences.map Occurrence.use).filterMap Use.untyped? := by
  induction occurrences with
  | nil => rfl
  | cons occurrence rest induction =>
      rw [List.filter_cons, List.map_cons, List.filterMap_cons, ← induction]
      cases type : occurrence.type with
      | none => simp [Use.untyped?, Occurrence.use, type]
      | some type => simp [Use.untyped?, Occurrence.use, type]

/-- The uses in a tree either agree and give all its parameters, or two of them
are reported. -/
theorem ofConstruct_of_uses (used : root.Uses callees uses) :
    let typed := uses.filterMap Use.typed?
    (¬ Conflict typed ∧ ofConstruct callees root =
        .ok (firsts (typed ++ uses.filterMap Use.untyped?))) ∨
      ∃ error, ofConstruct callees root = .error error ∧
        Reports error typed := by
  obtain rfl := Construct.uses_iff.mp used
  have start : ¬ Conflict [] := by
    rintro ⟨_, ⟨⟩, _⟩
  unfold ofConstruct
  rcases foldlM_addTyped (root.occurrences callees) start with
    ⟨agree, ran⟩ | ⟨error, failed, reports⟩
  · refine .inl ⟨agree, ?_⟩
    rw [← map_untyped, ← foldl_addUntyped]
    exact Except.bind_eq_ok.mpr ⟨_, ran, rfl⟩
  · refine .inr ⟨error, ?_, reports⟩
    exact congrArg (· >>= _) failed

theorem nodup_ofConstruct {parameters : List Parameter}
    (derived : ofConstruct callees root = .ok parameters) :
    (parameters.map name).Nodup := by
  rcases ofConstruct_of_uses (Construct.uses_iff.mpr rfl) with ⟨_, same⟩ |
    ⟨error, failed, _⟩
  · obtain rfl := Except.ok.inj (same.symm.trans derived)
    exact nodup_firsts _
  · cases failed.symm.trans derived

theorem mem_ofConstruct {parameters : List Parameter}
    (derived : ofConstruct callees root = .ok parameters)
    (used : root.Uses callees uses) {name type : String}
    (member : ⟨name, some type⟩ ∈ uses) : ⟨name, type⟩ ∈ parameters := by
  rcases ofConstruct_of_uses used with ⟨agree, same⟩ | ⟨error, failed, _⟩
  · obtain rfl := Except.ok.inj (same.symm.trans derived)
    have typed : (⟨name, type⟩ : Parameter) ∈ uses.filterMap Use.typed? :=
      List.mem_filterMap.mpr ⟨_, member, rfl⟩
    rw [firsts_append]
    exact List.mem_append_left _ (mem_firsts_of_agree agree typed)
  · cases failed.symm.trans derived

/-- A tree has parameters unless its uses give one name two types, and the error
then names both. The parameters are the names with a type in the order of their
first uses, then the names that are used without a type only, which are
strings. -/
theorem ofConstruct_exact (callees : Signatures) (root : Construct) :
    ∃ uses, root.Uses callees uses ∧
      (∀ others, root.Uses callees others → others = uses) ∧
      let typed := uses.filterMap Use.typed?
      let untyped := uses.filterMap Use.untyped?
      ((∃ error, ofConstruct callees root = .error error) ↔ Conflict typed) ∧
      (∀ error, ofConstruct callees root = .error error →
        error.cause.kind = .malformedAttribute ∧ Reports error typed) ∧
      (¬ Conflict typed → ofConstruct callees root = .ok (firsts typed ++
        firsts (untyped.filter fun parameter =>
          parameter.name ∉ typed.map name))) := by
  have used : root.Uses callees _ := Construct.uses_iff.mpr rfl
  refine ⟨_, used, fun others other => Construct.uses_iff.mp other, ?_⟩
  intro typed untyped
  rcases ofConstruct_of_uses used with ⟨agree, same⟩ | ⟨error, failed, reports⟩
  · rw [same, firsts_append]
    refine ⟨⟨?_, fun conflict => absurd conflict agree⟩, ?_, fun _ => rfl⟩
    · rintro ⟨_, ⟨⟩⟩
    · rintro _ ⟨⟩
  · rw [failed]
    refine ⟨⟨fun _ => reports.conflict, fun _ => ⟨error, rfl⟩⟩, ?_,
      fun agree => absurd reports.conflict agree⟩
    rintro _ ⟨⟩
    refine ⟨?_, reports⟩
    obtain ⟨name, first, second, cause, _⟩ := reports
    rw [cause]
    rfl

end Exactness

end Parameter

end Stencil
