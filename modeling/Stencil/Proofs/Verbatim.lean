import Stencil.Proofs.Catalogs
import Stencil.Proofs.Closures
import Stencil.Proofs.Indents
import Stencil.Proofs.Literals
import Stencil.Proofs.Runes
import Stencil.Proofs.Typing

namespace Stencil

open Text

/-! Whatever code takes over from a template stands on one line: a flattened
text has no line feeds, and a quoted one escapes them. -/

namespace Text

theorem oneLine_of_subset {text : String} {chars : List Char}
    (within : text.toList ⊆ chars) (plain : '\n' ∉ chars) : OneLine text :=
  fun feed => plain (within feed)

theorem oneLine_of_spelled {name : String}
    (spelled : name.toList.all isIdentifierPart) :
    OneLine name := by
  intro feed
  exact absurd (List.all_eq_true.mp spelled '\n' feed) (by decide)

theorem oneLine_of_isIdentifier {name : String}
    (identifier : isIdentifier name) : OneLine name :=
  oneLine_of_spelled (spelled_of_isIdentifier identifier)

theorem oneLine_of_isPath {path : String} (dotted : isPath path) :
    OneLine path :=
  (spellsPath_iff.mp dotted).not_mem (by decide) (by decide)

theorem oneLine_quote (text : String) : OneLine (Emit.quote text) := by
  intro feed
  rw [Emit.quote, String.toList_ofList, List.cons_append] at feed
  rcases List.mem_cons.mp feed with mark | feed
  · exact absurd mark (by decide)
  · rcases List.mem_append.mp feed with inside | mark
    · obtain ⟨char, _, written⟩ := List.mem_flatMap.mp inside
      exact Emit.not_isControl_escape char '\n' written (by decide)
    · exact absurd (List.mem_singleton.mp mark) (by decide)

theorem not_mem_of_slice? {chars middle : List Char} {start stop : Nat}
    {char : Char} (absent : char ∉ chars)
    (sliced : slice? chars start stop = some middle) : char ∉ middle := by
  obtain ⟨before, after, rfl, _⟩ := slice?_eq_some.mp sliced
  exact fun member =>
    absent (List.mem_append_right _ (List.mem_append_left _ member))

theorem not_isBlank_of_mem_words {chars word : List Char}
    (listed : word ∈ words chars) :
    ∀ char ∈ word, ¬ isBlank char := by
  fun_induction words chars with
  | case1 => cases listed
  | case2 chars first rest start induction =>
      rcases List.mem_cons.mp listed with rfl | later
      · intro char member
        rcases List.mem_cons.mp member with rfl | inside
        · have stopped := List.head?_dropWhile_not isBlank chars
          rw [show chars.dropWhile isBlank = char :: rest from start] at stopped
          simpa using stopped
        · have ink := List.all_eq_true.mp List.all_takeWhile char inside
          simpa using ink
      · exact induction later

end Text

namespace Marker

theorem expression_subset {location : Location} {cursor next : Cursor}
    {marker : Marker}
    (read : read? location cursor = .ok (some (marker, next))) :
    marker.expression.toList ⊆ marker.raw.toList := by
  unfold read? at read
  split at read
  · obtain ⟨⟨inner, after⟩, found, same⟩ := Except.map_eq_ok.mp read
    obtain ⟨rfl, rfl⟩ := Prod.mk.inj (Option.some.inj same)
    unfold Interpolation.read at found
    dsimp only at found
    split at found
    · cases found
    · split at found
      · cases found
      · obtain ⟨rfl, _⟩ := Prod.mk.inj (Except.ok.inj found)
        rw [expression, raw, String.toList_ofList, String.toList_ofList]
        intro char member
        exact List.mem_append_left _
          (List.mem_append_right _ ((trim_sublist _).subset member))
  · obtain ⟨_, found, mapped⟩ := Except.map_eq_ok.mp read
    obtain ⟨⟨inner, after⟩, rfl, same⟩ := Option.map_eq_some_iff.mp mapped
    obtain ⟨rfl, rfl⟩ := Prod.mk.inj same
    obtain ⟨_, _, _, _, written, rfl, _⟩ := Rune.read?_eq_some_iff.mp found
    rw [expression, raw, String.toList_ofList, String.toList_ofList]
    intro char member
    cases written with
    | quoted _ _ _ =>
        exact List.mem_append_left _
          (List.mem_append_right _ (List.mem_cons_of_mem _ member))
    | bare _ _ => exact List.mem_append_left _ (List.mem_append_right _ member)

theorem oneLine_of_scan {context : Context} {cursor : Cursor}
    {marked : MarkedText} (plain : '\n' ∉ cursor.rest)
    (scanned : scan context cursor = .ok marked) :
    ∀ marker ∈ marked.markers, OneLine marker.expression := by
  intro marker listed
  have inside := forall_markers_of_scan expression_subset scanned marker listed
  obtain ⟨entry, member, rfl⟩ := List.mem_map.mp listed
  refine oneLine_of_subset inside fun feed => plain ?_
  rw [← (scan_spells scanned).1]
  refine List.mem_append_right _ (List.mem_flatMap.mpr ⟨entry, member, ?_⟩)
  exact List.mem_append_left _ feed

end Marker

theorem Segment.oneLine_expression {marker : Marker}
    (plain : OneLine marker.expression) :
    OneLine (expression marker) := by
  have wrapped : ∀ renderer, OneLine renderer →
      OneLine (renderer ++ marker.expression ++ ")") := by
    intro renderer named
    rw [oneLine_append, oneLine_append]
    exact ⟨⟨named, plain⟩, by decide⟩
  cases marker with
  | interpolation inner => exact wrapped "gtmlEscape(" (by decide)
  | rune inner =>
      obtain ⟨kind, value, raw, span, location⟩ := inner
      cases kind with
      | prop | val => exact wrapped "gtmlEscape(" (by decide)
      | slot => exact plain
      | pipe =>
          cases location with
          | tag => exact wrapped "gtmlRawAttr(" (by decide)
          | text => exact wrapped "gtmlRaw(" (by decide)

theorem Segment.oneLine_weave {runs : List MarkedText} {calls : List String}
    (markers : ∀ marker ∈ runs.flatMap MarkedText.markers,
      OneLine marker.expression)
    (called : ∀ call ∈ calls, OneLine call) :
    ∀ segment ∈ weave runs calls, OneLine segment.text := by
  intro segment listed
  cases segment with
  | markup text => exact oneLine_quote text
  | code text =>
      have found : text ∈ (weave runs calls).filterMap expression? :=
        List.mem_filterMap.mpr ⟨.code text, listed, rfl⟩
      rcases List.mem_append.mp
        ((expressions_weave runs calls).mem_iff.mp found) with call | own
      · exact called text call
      · obtain ⟨marker, member, rfl⟩ := List.mem_map.mp own
        exact oneLine_expression (markers marker member)

namespace AttributeValue

structure OnOneLine (value : AttributeValue) : Prop where
  markers : ∀ marker ∈ value.markers, OneLine marker.expression
  literal : ∀ kind text, value = .literal kind text → OneLine text

theorem onOneLine_of_read {source : Source} {attr : Attribute}
    {value : AttributeValue} (plain : '\n' ∉ source.chars)
    (spelled : attr.Spelled source.chars)
    (read : AttributeValue.read source attr = .ok value) : value.OnOneLine := by
  have empty : AttributeValue.empty.OnOneLine :=
    ⟨List.forall_mem_nil _, by simp⟩
  cases valued : attr.value with
  | none =>
      rw [AttributeValue.read, valued] at read
      obtain rfl := Except.ok.inj read
      exact empty
  | some given =>
      have feedless := not_mem_of_slice? plain (spelled given valued)
      obtain ⟨marked, scanned, ⟨_, rfl⟩ | ⟨_, rfl⟩⟩ := read_ok read valued
      · exact empty
      · constructor
        · rw [markers_ofMarked]
          exact Marker.oneLine_of_scan feedless scanned
        · intro kind text same
          rcases ofMarked_cases given.text marked with ⟨_, shape⟩ |
            ⟨_, _, _, shape⟩ | ⟨_, shape⟩
          · obtain ⟨_, rfl⟩ :=
              AttributeValue.literal.inj (same.symm.trans shape)
            exact feedless
          · cases same.symm.trans shape
          · cases same.symm.trans shape

end AttributeValue

theorem Parameter.oneLine_of_convert {parameter : Parameter}
    {value : AttributeValue} {text : String} (plain : value.OnOneLine)
    (converted : parameter.convert value = .ok text) :
    OneLine text := by
  unfold convert at converted
  cases value with
  | empty =>
      dsimp only at converted
      split at converted
      · obtain rfl := Except.ok.inj converted
        decide
      · split at converted
        · obtain rfl := Except.ok.inj converted
          decide
        · cases converted
  | literal kind carried =>
      have whole := plain.literal kind carried rfl
      dsimp only at converted
      split at converted
      · obtain rfl := Except.ok.inj converted
        exact oneLine_quote carried
      · split at converted
        · obtain rfl := Except.ok.inj converted
          exact whole
        · split at converted
          · obtain rfl := Except.ok.inj converted
            exact whole
          · cases converted
  | expression marker =>
      obtain rfl := Except.ok.inj converted
      exact plain.markers marker (List.mem_singleton_self _)
  | template parts =>
      dsimp only at converted
      split at converted
      · obtain rfl := Except.ok.inj converted
        refine oneLine_intercalate (by decide) ?_
        intro written listed
        obtain ⟨part, member, rfl⟩ := List.mem_map.mp listed
        cases part with
        | plain text => exact oneLine_quote text
        | marker marker =>
            exact plain.markers marker
              (List.mem_filterMap.mpr ⟨.marker marker, member, rfl⟩)
      · cases converted

theorem Scope.loop_oneLine {scope : Scope} {attr : Attribute}
    {item collection type : String}
    (read : scope.loop attr = .ok (.loop item collection type)) :
    OneLine type := by
  unfold loop at read
  split at read
  · rename_i shape
    split at read
    · split at read
      · cases read
        have listed : type ∈ (words attr.text.toList).map String.ofList := by
          simp [shape]
        obtain ⟨word, member, rfl⟩ := List.mem_map.mp listed
        intro feed
        rw [String.toList_ofList] at feed
        exact not_isBlank_of_mem_words member '\n' feed (by decide)
      · cases read
    · cases read
  · cases read

namespace Construct

/-- What the code of the construct takes over from its template as it stands is
on one line. -/
structure OnOneLine (construct : Construct) : Prop where
  words : ∀ word ∈ construct.kind.parts, OneLine word
  markers : ∀ marker ∈ construct.markers, OneLine marker.expression
  arguments : ∀ target arguments,
    construct.kind = .placeholder target arguments →
    ∀ argument ∈ arguments, argument.value.OnOneLine

theorem BuiltFrom.onOneLine {scope : Scope} {element : Element}
    {construct : Construct} (built : BuiltFrom scope element construct)
    (plain : '\n' ∉ scope.source.chars)
    (spelled : ∀ attr ∈ element.tag.attributes, attr.Spelled scope.source.chars)
    (targets : ∀ target arguments,
      construct.kind = .placeholder target arguments →
      isIdentifier target) : construct.OnOneLine := by
  refine ⟨?_, ?_, ?_⟩
  · obtain ⟨_, classified⟩ := built.classified
    generalize construct.kind = kind at classified targets
    cases classified with
    | component _ _ value | slot _ value =>
        rw [Kind.parts, List.forall_mem_singleton]
        exact oneLine_of_isIdentifier (Scope.word_ok value).2
    | loop _ value =>
        obtain ⟨item, collection⟩ := Scope.loop_named value
        simp only [Kind.parts, List.forall_mem_cons]
        exact ⟨oneLine_of_isIdentifier item,
          by decide, oneLine_of_isPath collection,
          Scope.loop_oneLine value, List.forall_mem_nil _⟩
    | conditional _ value | alternative _ value =>
        rw [Kind.parts, List.forall_mem_singleton]
        exact oneLine_of_isPath (Scope.word_ok value).2
    | placeholder _ _ _ _ | call _ _ _ =>
        rw [Kind.parts, List.forall_mem_singleton]
        exact oneLine_of_isIdentifier (targets _ _ rfl)
  · intro marker member
    obtain ⟨run, listed, inside⟩ := List.mem_flatMap.mp member
    obtain ⟨gap, _, read⟩ := built.runs_marked run listed
    obtain ⟨chars, sliced, scanned⟩ := Source.marked_ok read
    have feedless : '\n' ∉ chars := not_mem_of_slice? plain sliced
    exact Marker.oneLine_of_scan feedless scanned marker inside
  · intro target arguments kind argument listed
    obtain ⟨attr, member, read⟩ := (Except.forall₂_of_mapM
      (built.arguments_of_placeholder kind)).exists_of_mem_right listed
    obtain ⟨value, valued, rfl⟩ := Except.map_eq_ok.mp read
    exact AttributeValue.onOneLine_of_read plain
      (spelled attr (List.mem_of_mem_filter member)) valued

end Construct

namespace Catalog

variable {files : List TemplateFile} {catalog : Catalog} {events : List Event}

theorem isIdentifier_name (parsed : parse files = .ok (catalog, events))
    {component : Component} (member : component ∈ catalog.components) :
    isIdentifier component.name := by
  obtain ⟨_, _, gives⟩ := exists_gives parsed
  obtain ⟨_, _, given⟩ := gives.exists_of_mem_right member
  exact given.identifier

theorem onOneLine (parsed : parse files = .ok (catalog, events))
    {component : Component} (member : component ∈ catalog.components)
    {construct : Construct} (inside : construct ∈ component.root.walk) :
    construct.OnOneLine := by
  obtain ⟨file, _, document, root, known, _, read, inDocument, built, _⟩ :=
    parse_ok parsed member
  obtain ⟨element, below, made⟩ :=
    (Construct.build_ok built).walk construct inside
  refine made.onOneLine (Source.flat_ofText file.text).oneLine ?_ ?_
  · obtain ⟨tokens, scanned, _, all⟩ := Document.parse_places read
    have walked : element ∈ document.descendants.map Prod.snd := by
      rcases List.mem_cons.mp below with rfl | deeper
      · exact inDocument
      · exact Element.mem_walk_of_descendant inDocument deeper
    obtain ⟨entry, listed, rfl⟩ := List.mem_map.mp walked
    have placed := (Element.all_of_walk all listed).here.element entry.2 rfl
    exact Source.tokens_spelled scanned placed.read
  · intro target arguments kind
    obtain ⟨other, listed, rfl, _⟩ := exists_target parsed member inside kind
    exact isIdentifier_name parsed listed

theorem oneLine_parameters (parsed : parse files = .ok (catalog, events))
    {signatures : Signatures}
    (derived : Signatures.ofCatalog catalog = .ok signatures) :
    ∀ entry ∈ signatures.entries, ∀ parameter ∈ entry.parameters,
      OneLine parameter.text := by
  obtain ⟨derivation, _⟩ := Signatures.derivation_of_ofCatalog derived
  have typed : signatures.Typed OneLine := by
    refine derivation.typed (by decide) (by decide) ?_
    intro component member construct walked item collection type kind
    have words := (onOneLine parsed member walked).words
    rw [kind] at words
    exact words type (by simp [Construct.Kind.parts])
  intro entry listed parameter inside
  obtain ⟨callees, _, _, component, member, _, own, _⟩ :=
    derivation.exists_callees listed
  have identifier : isIdentifier parameter.name := by
    refine ((Parameter.mem_names_ofConstruct own).mp
      (List.mem_map_of_mem inside)).isIdentifier ?_
    intro construct walked
    obtain ⟨_, _, _, _, _, _, built, _⟩ := exists_builtFrom parsed member walked
    exact ⟨_, _, built⟩
  rw [Parameter.text, oneLine_append, oneLine_append]
  exact ⟨⟨oneLine_of_isIdentifier identifier, by decide⟩,
    typed entry listed parameter inside⟩

end Catalog

end Stencil
