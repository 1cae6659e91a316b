import Stencil.AttributeValue
import Stencil.Proofs.Cursor
import Stencil.Proofs.Outcome

namespace Stencil

open Text

/-! A text that is cut at its markers can be put together again, and each marker
says where it stood. -/

theorem Source.slice_eq_ok {source : Source} {span : Span} {chars : List Char} :
    source.slice span = .ok chars ↔ source.slice? span = some chars := by
  unfold Source.slice
  split <;> simp_all

namespace Marker

/-- The marker is what stands between the cursors. -/
structure Spans (marker : Marker) (cursor next : Cursor) : Prop where
  reads : cursor.Reads marker.raw.toList next
  span_eq : marker.span = ⟨cursor.offset, next.offset⟩
  nonempty : marker.raw.toList ≠ []

theorem interpolation_spans {location : Location} {cursor next : Cursor}
    {interpolation : Interpolation}
    (begins : beginsWith Interpolation.opener cursor.rest)
    (read : Interpolation.read location cursor = .ok (interpolation, next)) :
    Spans (.interpolation interpolation) cursor next := by
  unfold Interpolation.read at read
  dsimp only at read
  split at read
  · cases read
  · rename_i char rest behind
    split at read
    · cases read
    · obtain ⟨rfl, rfl⟩ := Prod.mk.inj (Except.ok.inj read)
      have opened := Cursor.reads_of_beginsWith begins
      have passed :=
        (cursor.advance Interpolation.opener.length).reads_skipUntil
        (beginsWith Interpolation.closer)
      have closes := found_of_dropUntil behind
      rw [← behind] at closes
      have closed := Cursor.reads_of_beginsWith closes
      refine ⟨?_, rfl, ?_⟩
      · simp only [raw, String.toList_ofList]
        exact (opened.trans passed).trans closed
      · simp [raw, Interpolation.opener]

theorem rune_spans {location : Location} {cursor next : Cursor} {rune : Rune}
    (read : Rune.read? location cursor = .ok (some (rune, next))) :
    Spans (.rune rune) cursor next := by
  unfold Rune.read? at read
  split at read
  · cases read
  · rename_i kind found
    dsimp only at read
    split at read
    · cases read
    · rename_i char rest behind
      split at read
      · cases read
      · split at read
        · cases read
        · obtain ⟨rfl, rfl⟩ :=
            Prod.mk.inj (Option.some.inj (Except.ok.inj read))
          have begins := List.find?_some found
          have opened := Cursor.reads_of_beginsWith begins
          have passed := (cursor.advance kind.opener.length).reads_skipWhile
            fun char => char != ')'
          have mark : char = ')' := by
            have stopped := List.head?_dropWhile_not (fun char => char != ')')
              (cursor.advance kind.opener.length).rest
            rw [show List.dropWhile _ _ = _ from behind] at stopped
            simpa using stopped
          subst mark
          have closed := ((cursor.advance kind.opener.length).skipWhile
            fun char => char != ')').reads_advance 1
          rw [behind, List.take_succ_cons, List.take_zero] at closed
          refine ⟨?_, rfl, ?_⟩
          · simp only [raw, String.toList_ofList]
            exact (opened.trans passed).trans closed
          · simp [raw]

theorem read?_spans {location : Location} {cursor next : Cursor}
    {marker : Marker}
    (read : read? location cursor = .ok (some (marker, next))) :
    marker.Spans cursor next := by
  unfold read? at read
  split at read
  · rename_i begins
    obtain ⟨⟨inner, after⟩, found, same⟩ := Except.map_eq_ok.mp read
    obtain ⟨rfl, rfl⟩ := Prod.mk.inj (Option.some.inj same)
    exact interpolation_spans begins found
  · obtain ⟨found, inner_eq, mapped⟩ := Except.map_eq_ok.mp read
    obtain ⟨⟨inner, after⟩, rfl, same⟩ := Option.map_eq_some_iff.mp mapped
    obtain ⟨rfl, rfl⟩ := Prod.mk.inj same
    exact rune_spans inner_eq

end Marker

namespace MarkedText

def chars (marked : MarkedText) : List Char :=
  marked.lead ++ marked.tail.flatMap fun (marker, text) =>
    marker.raw.toList ++ text

def plain (marked : MarkedText) : List (List Char) :=
  marked.lead :: marked.tail.map Prod.snd

/-- The markers stand at their spans when the first of them stands at the
offset. -/
def Placed : Nat → List (Marker × List Char) → Prop
  | _, [] => True
  | offset, (marker, text) :: rest =>
      marker.raw.toList ≠ [] ∧
        marker.span = ⟨offset, offset + byteLength marker.raw.toList⟩ ∧
        Placed (marker.span.stop + byteLength text) rest

end MarkedText

namespace Marker

theorem scan_spells {context : Context} {cursor : Cursor} {marked : MarkedText}
    (scanned : scan context cursor = .ok marked) :
    marked.chars = cursor.rest ∧
      MarkedText.Placed (cursor.offset + byteLength marked.lead)
        marked.tail := by
  fun_induction scan context cursor generalizing marked with
  | case1 context cursor done =>
      cases scanned
      exact ⟨done.symm, trivial⟩
  | case2 => cases scanned
  | case3 context cursor char rest behind marker next read induction =>
      obtain ⟨inner, inner_eq, rfl⟩ := Except.map_eq_ok.mp scanned
      obtain ⟨spelled, placed⟩ := induction inner_eq
      have spans := read?_spans read
      refine ⟨?_, spans.nonempty, ?_, ?_⟩
      · rw [spans.reads.1, ← spelled]
        simp [MarkedText.chars]
      · rw [spans.span_eq, spans.reads.2]
        simp
      · rw [spans.span_eq]
        exact placed
  | case4 context cursor char rest behind read induction =>
      obtain ⟨inner, inner_eq, rfl⟩ := Except.map_eq_ok.mp scanned
      obtain ⟨spelled, placed⟩ := induction inner_eq
      have passed := cursor.reads_advance 1
      rw [behind, List.take_succ_cons, List.take_zero] at passed
      refine ⟨?_, ?_⟩
      · rw [passed.1, ← spelled]
        simp [MarkedText.chars]
      · rw [passed.2] at placed
        simpa [Nat.add_assoc] using placed

end Marker

namespace Source

variable {source : Source} {span : Span} {location : Location}
  {marked : MarkedText}

theorem marked_ok (read : source.marked span location = .ok marked) :
    ∃ chars, source.slice? span = some chars ∧
      Marker.scan (.ofLocation location) ⟨span.start, chars⟩ = .ok marked := by
  unfold Source.marked at read
  obtain ⟨chars, sliced, read⟩ := Except.bind_eq_ok.mp read
  unfold cutMarkers at read
  exact ⟨chars, slice_eq_ok.mp sliced, Except.mapError_eq_ok.mp read⟩

theorem marked_spells (read : source.marked span location = .ok marked) :
    source.slice? span = some marked.chars ∧
      MarkedText.Placed (span.start + byteLength marked.lead) marked.tail := by
  obtain ⟨chars, sliced, scanned⟩ := marked_ok read
  obtain ⟨spelled, placed⟩ := Marker.scan_spells scanned
  rw [spelled]
  exact ⟨sliced, placed⟩

end Source

theorem MarkedText.spelled_of_placed {source : Source} {start stop : Nat}
    {marked : MarkedText}
    (here : source.slice? ⟨start, stop⟩ = some marked.chars)
    (placed : Placed (start + byteLength marked.lead) marked.tail) :
    ∀ marker ∈ marked.markers, start ≤ marker.span.start ∧
      marker.span.start < marker.span.stop ∧ marker.span.stop ≤ stop ∧
      source.slice? marker.span = some marker.raw.toList := by
  obtain ⟨lead, tail⟩ := marked
  induction tail generalizing lead start with
  | nil => nofun
  | cons entry tail induction =>
      obtain ⟨marker, text⟩ := entry
      obtain ⟨nonempty, span, placed⟩ := placed
      simp only [chars, List.flatMap_cons, List.append_assoc] at here
      obtain ⟨raw, after⟩ := slice?_split (slice?_split here).2
      have wide := byteLength_pos nonempty
      rw [span] at placed
      rintro other (_ | ⟨_, member⟩)
      · rw [span]
        exact ⟨Nat.le_add_right _ _, Nat.lt_add_of_pos_right wide,
          slice?_le after, raw⟩
      · obtain ⟨behind, rest⟩ := induction text after placed other member
        refine ⟨Nat.le_trans ?_ behind, rest⟩
        dsimp only
        omega

end Stencil
