import Stencil.Proofs.Grammar
import Stencil.Proofs.Linking

namespace Stencil

open Text

/-! No marker is left in the markup that is written as it stands: wherever a
marker could begin, one was read. -/

namespace Marker

theorem scan_leaves_no_opener {context : Context} {cursor : Cursor}
    {marked : MarkedText} (scanned : scan context cursor = .ok marked) :
    ∀ text ∈ marked.plain, ∀ opener ∈ openers, ¬ opener <:+: text := by
  have empty : ∀ opener ∈ openers, ¬ opener <:+: [] :=
    fun opener listed inside => opener_ne_nil listed (List.infix_nil.mp inside)
  fun_induction scan context cursor generalizing marked with
  | case1 context cursor done =>
      cases scanned
      simpa [MarkedText.plain] using empty
  | case2 => cases scanned
  | case3 context cursor char rest behind marker next read induction =>
      obtain ⟨inner, inner_eq, rfl⟩ := Except.map_eq_ok.mp scanned
      rintro text (_ | ⟨_, member⟩)
      · exact empty
      · exact induction inner_eq text member
  | case4 context cursor char rest behind read induction =>
      obtain ⟨inner, inner_eq, rfl⟩ := Except.map_eq_ok.mp scanned
      rintro text (_ | ⟨_, member⟩)
      · intro opener listed inside
        rcases List.infix_cons_iff.mp inside with here | later
        · have spelled : cursor.rest = char :: inner.chars := by
            rw [(scan_spells inner_eq).1]
            simp [Cursor.advance, behind]
          refine not_begins_of_none read opener listed (here.trans ?_)
          rw [spelled, MarkedText.chars, ← List.cons_append]
          exact List.prefix_append _ _
        · exact induction inner_eq inner.lead (List.mem_cons_self ..) opener
            listed later
      · exact induction inner_eq text (List.mem_cons_of_mem _ member)

end Marker

namespace Segment

theorem toList_of_mem_ofText {chars : List Char} {text : String}
    (member : .markup text ∈ ofText chars) : text.toList = chars := by
  cases chars with
  | nil => cases member
  | cons char rest =>
      obtain rfl := Segment.markup.inj (List.mem_singleton.mp member)
      exact String.toList_ofList

theorem mem_plain_of_ofMarked {marked : MarkedText} {text : String}
    (member : .markup text ∈ ofMarked marked) : text.toList ∈ marked.plain := by
  rcases List.mem_append.mp member with lead | tail
  · rw [toList_of_mem_ofText lead]
    exact List.mem_cons_self ..
  · obtain ⟨entry, listed, written⟩ := List.mem_flatMap.mp tail
    rcases List.mem_cons.mp written with code | behind
    · cases code
    · rw [toList_of_mem_ofText behind]
      exact List.mem_cons_of_mem _ (List.mem_map_of_mem listed)

theorem exists_run_of_weave {runs : List MarkedText} {calls : List String}
    {text : String} (member : .markup text ∈ weave runs calls) :
    ∃ run ∈ runs, text.toList ∈ run.plain := by
  fun_induction weave runs calls with
  | case1 run runs call calls induction =>
      rcases List.mem_append.mp member with here | later
      · exact ⟨run, List.mem_cons_self .., mem_plain_of_ofMarked here⟩
      · rcases List.mem_cons.mp later with code | behind
        · cases code
        · obtain ⟨other, listed, found⟩ := induction behind
          exact ⟨other, List.mem_cons_of_mem _ listed, found⟩
  | case2 runs =>
      obtain ⟨run, listed, written⟩ := List.mem_flatMap.mp member
      exact ⟨run, listed, mem_plain_of_ofMarked written⟩
  | case3 calls =>
      obtain ⟨_, _, ⟨⟩⟩ := List.mem_map.mp member

end Segment

namespace Declaration

variable {signatures : Signatures}

theorem exists_construct (root : Construct) {whole : Declaration} {base : Nat}
    {entry : Nat × Declaration}
    (declared : ofConstruct signatures root = .ok whole)
    (listed : entry ∈ whole.listing base) :
    ∃ construct ∈ root.walk,
      ofConstruct signatures construct = .ok entry.2 := by
  induction root using Construct.children_induction generalizing whole base with
  | pass root induction =>
      rw [listing_eq] at listed
      rcases List.mem_cons.mp listed with rfl | below
      · exact ⟨root, Construct.mem_walk_self root, declared⟩
      · obtain ⟨inner, member, listed⟩ := mem_forestListing.mp below
        obtain ⟨_, _, made, _⟩ := ofConstruct_ok declared
        obtain ⟨child, inside, childDeclared⟩ := made.exists_of_mem_right member
        obtain ⟨construct, walked, found⟩ :=
          induction child inside childDeclared listed
        exact ⟨construct, Construct.mem_walk_of_child inside walked, found⟩

theorem exists_run_of_markup {construct : Construct} {declaration : Declaration}
    {text : String}
    (declared : ofConstruct signatures construct = .ok declaration)
    (written : .markup text ∈ declaration.segments) :
    ∃ run ∈ construct.runs, text.toList ∈ run.plain := by
  obtain ⟨kind, id, span, html, runs, children⟩ := construct
  rw [ofConstruct] at declared
  obtain ⟨inner, _, declared⟩ := Except.bind_eq_ok.mp declared
  obtain ⟨content, made, declared⟩ := Except.bind_eq_ok.mp declared
  obtain ⟨frame, _, declared⟩ := Except.bind_eq_ok.mp declared
  obtain rfl := Except.pure_eq_ok.mp declared
  unfold Declaration.content at made
  cases kind with
  | placeholder target arguments =>
      obtain ⟨_, _, rfl⟩ := Except.map_eq_ok.mp made
      cases written
  | component | loop | conditional | alternative | slot =>
      obtain rfl := Except.ok.inj made
      exact Segment.exists_run_of_weave written

end Declaration

namespace Catalog

variable {files : List TemplateFile} {catalog : Catalog} {events : List Event}

theorem markup_holds_no_opener (parsed : parse files = .ok (catalog, events))
    {component : Component} (member : component ∈ catalog.components)
    {construct : Construct} (inside : construct ∈ component.root.walk)
    {signatures : Signatures} {declaration : Declaration}
    (declared : Declaration.ofConstruct signatures construct = .ok declaration)
    {text : String} (written : .markup text ∈ declaration.segments) :
    ∀ opener ∈ Marker.openers, ¬ opener <:+: text.toList := by
  obtain ⟨run, listed, between⟩ :=
    Declaration.exists_run_of_markup declared written
  obtain ⟨_, _, _, _, _, _, made, _⟩ := exists_builtFrom parsed member inside
  obtain ⟨_, _, marked⟩ := made.runs_marked run listed
  obtain ⟨_, _, scanned⟩ := Source.marked_ok marked
  exact Marker.scan_leaves_no_opener scanned text.toList between

/-- In the functions of a catalog, no declaration writes markup in which an
opening of a marker is left. -/
theorem functions_expand_markers (parsed : parse files = .ok (catalog, events))
    {functions : List GeneratedFunction} {told : List Event}
    (compiled : catalog.functions = .ok (functions, told)) :
    ∃ signatures, Signatures.ofCatalog catalog = .ok signatures ∧
      List.Forall₂ (fun component function => ∃ whole,
          Declaration.ofConstruct signatures component.root = .ok whole ∧
          function.code = whole.code ∧
          ∀ entry ∈ whole.listing 0, ∀ text, .markup text ∈ entry.2.segments →
            ∀ opener ∈ ["\x7b\x7b", "$prop(", "$slot(", "$val(", "$pipe("],
              ¬ opener.toList <:+: text.toList)
        catalog.components functions := by
  obtain ⟨signatures, derived, generated⟩ := functions_ok compiled
  refine ⟨signatures, derived, ?_⟩
  have each := (List.forall₂_and_left _ _).mpr
    ⟨fun _ member => member, generated⟩
  refine each.imp ?_
  rintro component function ⟨member, whole, declared, rfl⟩
  refine ⟨whole, declared, rfl, ?_⟩
  intro entry listed text written opener known
  obtain ⟨construct, walked, made⟩ :=
    Declaration.exists_construct component.root declared listed
  refine markup_holds_no_opener parsed member walked made written opener.toList
    ?_
  have openers : Marker.openers =
      ["\x7b\x7b", "$prop(", "$slot(", "$val(", "$pipe("].map
        String.toList := by decide
  rw [openers]
  exact List.mem_map_of_mem known

/-- Braces that are left over on both sides of a marker, and an opener that a
construct cuts. -/
theorem functions_expand_markers_braces :
    let files : List TemplateFile :=
      [⟨"a.html",
        "<p _component=\"A\">\x7b \x7b\x7b\x7b x \x7d\x7d\x7d $prop $pro" ++
        "<i _if=\"on\">p('a')</i>\x7b</p>"⟩]
    ∃ catalog events functions told component, ∃ whole : Declaration,
      parse files = .ok (catalog, events) ∧
      catalog.functions = .ok (functions, told) ∧
      component ∈ catalog.components ∧
      (whole.listing 0).map (fun entry => entry.2.segments) =
        [[.markup "<p _component=\"A\">\x7b ", .code "gtmlEscape(\x7b x)",
            .markup "\x7d $prop $pro", .code "gtmlIf(on, if1)",
            .markup "\x7b</p>"],
          [.markup "<i _if=\"on\">p('a')</i>"]] ∧
      ∀ entry ∈ whole.listing 0, ∀ text, .markup text ∈ entry.2.segments →
        ∀ opener ∈ ["\x7b\x7b", "$prop(", "$slot(", "$val(", "$pipe("],
          ¬ opener.toList <:+: text.toList := by
  intro files
  let segments : List (List Segment) :=
    [[.markup "<p _component=\"A\">\x7b ", .code "gtmlEscape(\x7b x)",
        .markup "\x7d $prop $pro", .code "gtmlIf(on, if1)", .markup "\x7b</p>"],
      [.markup "<i _if=\"on\">p('a')</i>"]]
  have shape : (parse files).map (fun result => do
      let _ ← result.1.functions
      let signatures ← Signatures.ofCatalog result.1
      result.1.components.mapM fun component : Component =>
        (Declaration.ofConstruct signatures component.root).map
            fun whole : Declaration =>
              (whole.listing 0).map fun entry : Nat × Declaration =>
                entry.2.segments) =
      .ok (.ok [segments]) := by
    decide +kernel
  obtain ⟨⟨catalog, events⟩, parsed, shape⟩ := Except.map_eq_ok.mp shape
  obtain ⟨⟨functions, told⟩, compiled, shape⟩ := Except.bind_eq_ok.mp shape
  obtain ⟨_, same, shape⟩ := Except.bind_eq_ok.mp shape
  obtain ⟨signatures, derived, expanded⟩ :=
    functions_expand_markers parsed compiled
  obtain rfl := Except.ok.inj (derived.symm.trans same)
  obtain ⟨component, member, written⟩ :=
    (Except.forall₂_of_mapM shape).exists_of_mem_right
      (List.mem_singleton_self _)
  obtain ⟨_, _, whole, declared, _, clean⟩ := expanded.exists_of_mem_left member
  rw [declared] at written
  exact ⟨catalog, events, functions, told, component, whole, parsed, compiled,
    member,
    Except.ok.inj written, clean⟩

end Catalog

end Stencil
