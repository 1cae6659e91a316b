import Mathlib.Data.List.Chain
import Stencil.Proofs.Scanning
import Stencil.Proofs.Tiling

namespace Stencil

open Text

/-! The value of an attribute can be told from what it was read as. -/

namespace TextPart

def chars : TextPart → List Char
  | .plain text => text.toList
  | .marker inner => inner.raw.toList

def isPlain : TextPart → Bool
  | .plain _ => true
  | .marker _ => false

/-- The parts spell the text, with a marker among them and with plain text only
between markers. -/
structure Mix (parts : List TextPart) (text : String) : Prop where
  spelled : parts.flatMap chars = text.toList
  marked : ∃ marker, .marker marker ∈ parts
  filled : .plain "" ∉ parts
  apart : parts.IsChain fun left right => ¬ (left.isPlain ∧ right.isPlain)
  unopened : ∀ plain, .plain plain ∈ parts →
    ∀ opener ∈ Marker.openers, ¬ opener <:+: plain.toList

end TextPart

namespace Marker

theorem scan_plain {context : Context} {cursor : Cursor} {marked : MarkedText}
    (scanned : scan context cursor = .ok marked) :
    ∀ chars ∈ marked.plain, ∀ opener ∈ openers, ¬ opener <:+: chars := by
  have unopened : ∀ opener ∈ openers, ¬ opener <:+: ([] : List Char) := by
    intro opener listed inside
    exact opener_ne_nil listed (List.infix_nil.mp inside)
  fun_induction scan context cursor generalizing marked with
  | case1 =>
      cases scanned
      exact List.forall_mem_singleton.mpr unopened
  | case2 => cases scanned
  | case3 context cursor char rest behind marker next read induction =>
      obtain ⟨inner, inner_eq, rfl⟩ := Except.map_eq_ok.mp scanned
      exact List.forall_mem_cons.mpr ⟨unopened, induction inner_eq⟩
  | case4 context cursor char rest behind read induction =>
      obtain ⟨inner, inner_eq, rfl⟩ := Except.map_eq_ok.mp scanned
      obtain ⟨first, later⟩ := List.forall_mem_cons.mp (induction inner_eq)
      refine List.forall_mem_cons.mpr ⟨?_, later⟩
      intro opener listed inside
      rcases List.infix_cons_iff.mp inside with begins | inside
      · have here : char :: inner.lead <+: cursor.rest := by
          rw [(Cursor.reads_head behind).1, ← (scan_spells inner_eq).1]
          exact List.prefix_append (char :: inner.lead) _
        exact not_begins_of_none read opener listed (begins.trans here)
      · exact first opener listed inside

end Marker

theorem AttributeValue.markers_append (left right : List TextPart) :
    (template (left ++ right)).markers =
      (template left).markers ++ (template right).markers :=
  List.filterMap_append

namespace MarkedText

theorem parts_cons (lead text : List Char) (marker : Marker)
    (tail : List (Marker × List Char)) :
    parts ⟨lead, (marker, text) :: tail⟩ =
      plainParts lead ++ .marker marker :: parts ⟨text, tail⟩ := by
  simp [parts]

theorem chars_parts (marked : MarkedText) :
    marked.parts.flatMap TextPart.chars = marked.chars := by
  have plain : ∀ chars, (plainParts chars).flatMap TextPart.chars = chars := by
    intro chars
    cases chars <;> simp [plainParts, TextPart.chars]
  obtain ⟨lead, tail⟩ := marked
  induction tail generalizing lead with
  | nil => simp [parts, chars, plain]
  | cons entry tail induction =>
      obtain ⟨marker, text⟩ := entry
      rw [parts_cons, List.flatMap_append, List.flatMap_cons, plain, induction]
      simp [chars, TextPart.chars]

theorem isChain_parts (marked : MarkedText) :
    marked.parts.IsChain fun left right =>
      ¬ (left.isPlain ∧ right.isPlain) := by
  obtain ⟨lead, tail⟩ := marked
  induction tail generalizing lead with
  | nil => cases lead <;> simp [parts, plainParts]
  | cons entry tail induction =>
      obtain ⟨marker, text⟩ := entry
      rw [parts_cons]
      have behind : (TextPart.marker marker :: parts ⟨text, tail⟩).IsChain
          fun left right => ¬ (left.isPlain ∧ right.isPlain) :=
        (induction text).cons (by simp [TextPart.isPlain])
      cases lead with
      | nil => exact behind
      | cons char lead => exact .cons_cons (by simp [TextPart.isPlain]) behind

theorem mem_plain_of_parts {marked : MarkedText} {text : String}
    (member : .plain text ∈ marked.parts) :
    text ≠ "" ∧ text.toList ∈ marked.plain := by
  have only : ∀ chars, .plain text ∈ plainParts chars → text ≠ "" ∧
        text.toList = chars := by
    intro chars inside
    cases chars with
    | nil => cases inside
    | cons char chars =>
        obtain rfl := TextPart.plain.inj (List.mem_singleton.mp inside)
        simp
  obtain ⟨lead, tail⟩ := marked
  induction tail generalizing lead with
  | nil =>
      obtain ⟨filled, same⟩ := only lead (by simpa [parts] using member)
      exact ⟨filled, same ▸ List.mem_cons_self⟩
  | cons entry tail induction =>
      obtain ⟨marker, next⟩ := entry
      rw [parts_cons] at member
      rcases List.mem_append.mp member with here | later
      · obtain ⟨filled, same⟩ := only lead here
        exact ⟨filled, same ▸ List.mem_cons_self⟩
      · obtain ⟨filled, listed⟩ := induction next (by simpa using later)
        exact ⟨filled, List.mem_cons_of_mem _ listed⟩

theorem markers_parts (marked : MarkedText) :
    (AttributeValue.template marked.parts).markers = marked.markers := by
  have plain : ∀ chars,
      (AttributeValue.template (plainParts chars)).markers = [] := by
    intro chars
    cases chars <;> rfl
  obtain ⟨lead, tail⟩ := marked
  induction tail generalizing lead with
  | nil =>
      rw [parts, List.flatMap_nil, List.append_nil, plain]
      rfl
  | cons entry tail induction =>
      obtain ⟨marker, text⟩ := entry
      rw [parts_cons, AttributeValue.markers_append, plain]
      exact congrArg (marker :: ·) (induction text)

end MarkedText

namespace AttributeValue

/-- The value could have been read from no other text, blanks around a marker
apart. -/
def Restores (text : String) : AttributeValue → Prop
  | .empty => text = ""
  | .literal _ carried => carried = text
  | .expression marker =>
      ∃ before behind, (∀ char ∈ before ++ behind, isBlank char) ∧
      text.toList = before ++ marker.raw.toList ++ behind
  | .template parts => TextPart.Mix parts text

variable {context : Marker.Context} {offset : Nat} {text : String}
  {marked : MarkedText}

theorem mix_of_scan
    (scanned : Marker.scan context ⟨offset, text.toList⟩ = .ok marked)
    (some : marked.markers ≠ []) : TextPart.Mix marked.parts text := by
  refine ⟨?_, ?_, ?_, marked.isChain_parts, ?_⟩
  · rw [marked.chars_parts]
    exact (Marker.scan_spells scanned).1
  · obtain ⟨marker, listed⟩ := List.exists_mem_of_ne_nil _ some
    rw [← marked.markers_parts] at listed
    obtain ⟨part, inside, found⟩ := List.mem_filterMap.mp listed
    cases part with
    | plain text => cases found
    | marker inner => exact ⟨inner, inside⟩
  · intro empty
    exact (MarkedText.mem_plain_of_parts empty).1 rfl
  · intro plain inside
    exact Marker.scan_plain scanned _ (MarkedText.mem_plain_of_parts inside).2

theorem ofMarked_cases (text : String) (marked : MarkedText) :
    (marked.markers = [] ∧ ofMarked text marked = .literal (.of text) text) ∨
      (∃ marker, marked.markers = [marker] ∧ trimmed text = marker.raw ∧
        ofMarked text marked = .expression marker) ∨
      (marked.markers ≠ [] ∧
        ofMarked text marked = .template marked.parts) := by
  unfold ofMarked
  split
  · exact .inl ⟨by assumption, rfl⟩
  · rename_i marker single
    split
    · rename_i same
      exact .inr (.inl ⟨marker, single, same, rfl⟩)
    · exact .inr (.inr ⟨by simp [single], rfl⟩)
  · rename_i filled _
    exact .inr (.inr ⟨filled, rfl⟩)

theorem ofMarked_ne_empty : ofMarked text marked ≠ .empty := by
  rcases ofMarked_cases text marked with ⟨_, same⟩ | ⟨_, _, _, same⟩ |
    ⟨_, same⟩ <;>
    simp [same]

theorem markers_ofMarked : (ofMarked text marked).markers = marked.markers := by
  rcases ofMarked_cases text marked with ⟨none, same⟩ | ⟨_, single, _, same⟩ |
    ⟨_, same⟩
  · rw [same, none]
    rfl
  · rw [same, single]
    rfl
  · rw [same, marked.markers_parts]

theorem restores_ofMarked
    (scanned : Marker.scan context ⟨offset, text.toList⟩ = .ok marked) :
    (ofMarked text marked).Restores text := by
  rcases ofMarked_cases text marked with ⟨_, same⟩ | ⟨marker, _, raw, same⟩ |
    ⟨filled, same⟩
  · rw [same]
    rfl
  · rw [same]
    obtain ⟨behind, blank, spelled⟩ := exists_trim_append text.toList
    refine ⟨text.toList.takeWhile isBlank, behind, ?_, ?_⟩
    · intro char member
      rcases List.mem_append.mp member with front | back
      · exact List.all_eq_true.mp List.all_takeWhile char front
      · exact blank char back
    · rw [← raw, trimmed, String.toList_ofList, List.append_assoc]
      exact spelled
  · rw [same]
    exact mix_of_scan scanned filled

theorem read_ok {source : Source} {attr : Attribute} {value : AttributeValue}
    (classified : read source attr = .ok value) {given : Attribute.Value}
    (valued : attr.value = some given) :
    ∃ marked, Marker.scan .value ⟨given.span.start, given.text.toList⟩ =
      .ok marked ∧
      ((given.text = "" ∧ value = .empty) ∨
        (given.text ≠ "" ∧ value = ofMarked given.text marked)) := by
  rw [read, valued] at classified
  dsimp only at classified
  split at classified
  · rename_i empty
    obtain rfl := Except.ok.inj classified
    have none : given.text = "" := String.isEmpty_iff.mp empty
    exact ⟨⟨[], []⟩, by rw [none, String.toList_empty, Marker.scan], .inl ⟨none,
      rfl⟩⟩
  · rename_i filled
    obtain ⟨marked, cut, rfl⟩ := Except.map_eq_ok.mp classified
    exact ⟨marked, Except.mapError_eq_ok.mp cut,
      .inr ⟨mt String.isEmpty_iff.mpr filled, rfl⟩⟩

/-- What the value of an attribute is read as tells the value, and has the
markers that stand there. -/
theorem read_restores {source : Source} {tokens : List Token} {tag : Tag}
    {span : Span} {attr : Attribute} {value : AttributeValue}
    (scanned : source.tokens = .ok tokens)
    (tagged : ⟨.startTag tag, span⟩ ∈ tokens) (member : attr ∈ tag.attributes)
    (classified : read source attr = .ok value) :
    (value = .empty ↔ attr.value = none ∨ ∃ given,
      attr.value = some given ∧ given.text = "") ∧
    ∀ given, attr.value = some given →
      value.Restores given.text ∧
      source.markers given.span .tag = .ok value.markers := by
  have spelled := source.tokens_spelled scanned tagged attr member
  constructor
  · cases valued : attr.value with
    | none =>
        rw [read, valued] at classified
        obtain rfl := Except.ok.inj classified
        simp
    | some given =>
        obtain ⟨marked, _, ⟨empty, rfl⟩ | ⟨filled, rfl⟩⟩ :=
          read_ok classified valued
        · simp [empty]
        · simp [filled, ofMarked_ne_empty]
  · intro given valued
    obtain ⟨marked, found, result⟩ := read_ok classified valued
    have there : source.markers given.span .tag = .ok marked.markers := by
      rw [source.markers_eq (spelled given valued), Marker.Context.ofLocation,
        found]
      rfl
    rcases result with ⟨empty, rfl⟩ | ⟨_, rfl⟩
    · rw [empty, String.toList_empty, Marker.scan] at found
      obtain rfl := Except.ok.inj found
      exact ⟨empty, there⟩
    · rw [markers_ofMarked]
      exact ⟨restores_ofMarked found, there⟩

theorem read_restores_mixed :
    let source := Source.ofText "<a u=\"é$prop('x')\x7b\x7b y \x7d\x7d.\">"
    let parts : List TextPart :=
      [.plain "é", .marker (.rune ⟨.prop, "x", "$prop('x')", ⟨8, 18⟩, .tag⟩),
        .marker (.interpolation ⟨"y", "\x7b\x7b y \x7d\x7d", ⟨18, 25⟩, .tag⟩),
        .plain "."]
    ∃ tokens tag span attr given, source.tokens = .ok tokens ∧
      ⟨.startTag tag, span⟩ ∈ tokens ∧ attr ∈ tag.attributes ∧
      read source attr = .ok (.template parts) ∧ attr.value = some given ∧
      given.text = "é$prop('x')\x7b\x7b y \x7d\x7d." ∧
      TextPart.Mix parts given.text ∧
      source.markers given.span .tag = .ok (template parts).markers := by
  intro source parts
  let given : Attribute.Value :=
    ⟨"é$prop('x')\x7b\x7b y \x7d\x7d.", .double, ⟨6, 26⟩⟩
  let attr : Attribute := ⟨"u", some given, ⟨3, 27⟩⟩
  let tag : Tag := ⟨"a", [attr], false⟩
  have scanned : source.tokens =
      .ok [⟨.startTag tag, ⟨0, 28⟩⟩, ⟨.eof, ⟨28, 28⟩⟩] := by
    decide +kernel
  have classified : read source attr = .ok (.template parts) := by
    decide +kernel
  have member : attr ∈ tag.attributes := List.mem_cons_self
  obtain ⟨_, restores⟩ :=
    read_restores scanned List.mem_cons_self member classified
  obtain ⟨mix, there⟩ := restores given rfl
  exact ⟨_, tag, _, attr, given, scanned, List.mem_cons_self, member,
    classified, rfl, rfl, mix,
    there⟩

end AttributeValue

end Stencil
