import Stencil.Proofs.Grammar
import Stencil.Proofs.Octets

namespace Stencil

open Text

/-! Scanning a text for markers finds all of them and fails at the first that is
broken. -/

namespace Marker

section Failures

theorem scan_passes {context : Context} {cursor : Cursor} {char : Char}
    {rest : List Char} (head : cursor.rest = char :: rest)
    (read : read? context.location cursor = .ok none) :
    scan context cursor =
      (scan (context.step char rest) (cursor.advance 1)).map fun marked =>
        ⟨char :: marked.lead, marked.tail⟩ := by
  rw [scan]
  split
  · simp_all
  · rename_i shape
    obtain ⟨rfl, rfl⟩ := List.cons.inj (shape.symm.trans head)
    split <;> simp_all

theorem scan_skips {context : Context} {cursor next : Cursor} {marker : Marker}
    (read : read? context.location cursor = .ok (some (marker, next))) :
    scan context cursor =
      (scan context next).map fun marked =>
        ⟨[], (marker, marked.lead) :: marked.tail⟩ := by
  have shorter := length_read?_lt read
  rw [scan]
  split
  · simp_all
  · split <;> simp_all

theorem scan_stops {context : Context} {cursor : Cursor} {failure : Failure}
    (read : read? context.location cursor = .error failure) :
    scan context cursor = .error failure := by
  rw [scan]
  split
  · rename_i done
    have plain : read? context.location cursor = .ok none := by
      apply read?_plain
      intro opener listed begins
      rw [done, List.prefix_nil] at begins
      exact opener_ne_nil listed begins
    cases read.symm.trans plain
  · split <;> simp_all

/-- Reading goes on from one place of a text to another. It passes a character
where no marker opens and skips complete markers, which leave the context as it
is. -/
inductive Reaches : Context → List Char → Context → List Char → Prop
  | here (context : Context) (chars : List Char) :
      Reaches context chars context chars
  | pass {context last : Context} {char : Char} {rest left : List Char}
      (plain : ∀ opener ∈ openers, ¬ opener <+: char :: rest)
      (onward : Reaches (context.step char rest) rest last left) :
      Reaches context (char :: rest) last left
  | skip {context last : Context} {raw rest left : List Char}
      (complete : Complete context.location raw)
        (onward : Reaches context rest last left) :
      Reaches context (raw ++ rest) last left

theorem Reaches.scan_error {context last : Context} {chars left : List Char}
    (reaches : Reaches context chars last left)
    (broken : Broken last.location left) (offset : Nat) :
    ∃ failure, scan context ⟨offset, chars⟩ = .error failure := by
  induction reaches generalizing offset with
  | here context chars =>
      obtain ⟨failure, read⟩ := broken.read? offset
      exact ⟨failure, scan_stops read⟩
  | @pass context last char rest left plain onward induction =>
      obtain ⟨failure, failed⟩ := induction broken (offset + char.utf8Size)
      refine ⟨failure, ?_⟩
      rw [scan_passes rfl (read?_plain plain),
        show Cursor.advance ⟨offset, char :: rest⟩ 1 =
        ⟨offset + char.utf8Size, rest⟩ from rfl, failed]
      rfl
  | @skip context last raw rest left complete onward induction =>
      obtain ⟨marker, read⟩ := complete.read? rest offset
      obtain ⟨failure, failed⟩ := induction broken (offset + byteLength raw)
      refine ⟨failure, ?_⟩
      rw [scan_skips read, failed]
      rfl

theorem reaches_of_scan_error {context : Context} {cursor : Cursor}
    {failure : Failure} (failed : scan context cursor = .error failure) :
    ∃ last left, Reaches context cursor.rest last left ∧
      Broken last.location left := by
  fun_induction scan context cursor with
  | case1 => cases failed
  | case2 context cursor char rest shape failure read =>
      rcases read?_cases context.location cursor with ⟨_, found⟩ |
        ⟨_, _, _, _, _, found⟩ | found
      · cases read.symm.trans found
      · cases read.symm.trans found
      · exact ⟨context, cursor.rest, .here .., found.1⟩
  | case3 context cursor char rest shape marker next read induction =>
      obtain ⟨last, left, onward, broken⟩ :=
        induction (Except.map_eq_error.mp failed)
      rcases read?_cases context.location cursor with
        ⟨_, found⟩ | ⟨raw, after, other, complete, spelled, found⟩ |
          ⟨_, _, found⟩
      · cases read.symm.trans found
      · obtain ⟨_, rfl⟩ :=
          Prod.mk.inj (Option.some.inj (Except.ok.inj (read.symm.trans found)))
        rw [spelled]
        exact ⟨last, left, .skip complete onward, broken⟩
      · cases read.symm.trans found
  | case4 context cursor char rest shape read induction =>
      obtain ⟨last, left, onward, broken⟩ :=
        induction (Except.map_eq_error.mp failed)
      have plain := not_begins_of_none read
      rw [Cursor.advance, shape] at onward
      rw [shape] at plain ⊢
      exact ⟨last, left, .pass plain onward, broken⟩

end Failures

section Coverage

theorem narrow_of_mem_openers {opener : List Char} (listed : opener ∈ openers) :
    ∀ char ∈ opener, isNarrow char := by
  have all : openers.all (fun opener => opener.all isNarrow) := rfl
  exact List.all_eq_true.mp (List.all_eq_true.mp all opener listed)

theorem begins_octets {opener : List Char} (listed : opener ∈ openers)
    {chars : List Char} :
    opener <+: octets chars ↔ opener <+: chars := by
  have same := beginsWith_octets (narrow_of_mem_openers listed) chars
  rw [← List.isPrefixOf_iff_prefix, ← List.isPrefixOf_iff_prefix]
  exact Bool.eq_iff_iff.mp same

theorem not_begins_inside {opener : List Char} (listed : opener ∈ openers)
    {char : Char} {place : Nat} (inside : 0 < place)
    (within : place < char.utf8Size) (behind : List Char) :
    ¬ opener <+: (octetsOf char ++ behind).drop place := by
  have wide : ¬ isNarrow char := by
    intro narrow
    rw [utf8Size_of_narrow narrow] at within
    omega
  have fits : place < (octetsOf char).length := by rwa [length_octetsOf]
  obtain ⟨first, others, rfl⟩ :=
    List.exists_cons_of_ne_nil (opener_ne_nil listed)
  rw [List.drop_append_of_le_length (Nat.le_of_lt fits),
    List.drop_eq_getElem_cons fits]
  intro begins
  rw [List.cons_append, List.cons_prefix_cons] at begins
  apply wide_of_mem_octetsOf wide (List.getElem_mem fits)
  rw [← begins.1]
  exact narrow_of_mem_openers listed first (List.mem_cons_self ..)

theorem drop_octets_append (left right : List Char) (place : Nat) :
    (octets (left ++ right)).drop (byteLength left + place) =
      (octets right).drop place := by
  rw [octets_append, ← List.drop_drop, ← length_octets, List.drop_left]

theorem scan_leaves_none {context : Context} {cursor : Cursor}
    {marked : MarkedText} (scanned : scan context cursor = .ok marked)
    {place : Nat}
    (outside : ∀ marker ∈ marked.markers,
      ¬ (marker.span.start ≤ cursor.offset + place ∧
      cursor.offset + place < marker.span.stop)) :
    ∀ opener ∈ openers, ¬ opener <+: (octets cursor.rest).drop place := by
  fun_induction scan context cursor generalizing marked place with
  | case1 context cursor done =>
      intro opener listed begins
      rw [done, octets_nil, List.drop_nil, List.prefix_nil] at begins
      exact opener_ne_nil listed begins
  | case2 => cases scanned
  | case3 context cursor char rest shape marker next read induction =>
      obtain ⟨inner, inner_eq, rfl⟩ := Except.map_eq_ok.mp scanned
      have spans := read?_spans read
      have past : byteLength marker.raw.toList ≤ place := by
        have apart := outside marker (List.mem_cons_self ..)
        rw [spans.span_eq, spans.reads.2] at apart
        dsimp only at apart
        omega
      obtain ⟨more, rfl⟩ := Nat.exists_eq_add_of_le past
      rw [spans.reads.1, drop_octets_append]
      apply induction inner_eq
      rw [spans.reads.2, Nat.add_assoc]
      exact fun other member => outside other (List.mem_cons_of_mem _ member)
  | case4 context cursor char rest shape read induction =>
      obtain ⟨inner, inner_eq, rfl⟩ := Except.map_eq_ok.mp scanned
      have passed := Cursor.reads_head shape
      intro opener listed
      rcases Nat.lt_or_ge place char.utf8Size with within | past
      · rcases Nat.eq_zero_or_pos place with rfl | inside
        · rw [List.drop_zero, begins_octets listed]
          exact not_begins_of_none read opener listed
        · rw [shape, octets_cons]
          exact not_begins_inside listed inside within _
      · obtain ⟨more, rfl⟩ := Nat.exists_eq_add_of_le past
        rw [passed.1, show char.utf8Size = byteLength [char] from rfl,
          drop_octets_append]
        refine induction inner_eq ?_ opener listed
        rw [passed.2, Nat.add_assoc]
        exact outside

end Coverage

end Marker

namespace MarkedText

theorem le_start_of_placed {offset : Nat} {tail : List (Marker × List Char)}
    (placed : Placed offset tail) :
    ∀ entry ∈ tail, offset ≤ entry.1.span.start := by
  induction tail generalizing offset with
  | nil => nofun
  | cons entry tail induction =>
      obtain ⟨_, span, placed⟩ := placed
      rintro other (_ | ⟨_, member⟩)
      · rw [span]
      · have later := induction placed other member
        rw [span] at later
        dsimp only at later
        omega

theorem ordered_of_placed {offset : Nat} {tail : List (Marker × List Char)}
    (placed : Placed offset tail) :
    (tail.map Prod.fst).Pairwise fun left right =>
      left.span.stop ≤ right.span.start := by
  induction tail generalizing offset with
  | nil => exact .nil
  | cons entry tail induction =>
      obtain ⟨_, _, placed⟩ := placed
      refine .cons (fun other member => ?_) (induction placed)
      obtain ⟨entry, listed, rfl⟩ := List.mem_map.mp member
      exact Nat.le_trans (Nat.le_add_right ..)
        (le_start_of_placed placed entry listed)

end MarkedText

namespace Source

variable {source : Source} {span : Span} {chars : List Char}

theorem drop_octets_slice (sliced : source.slice? span = some chars)
    (place : Nat) :
    ((octets source.chars).take span.stop).drop (span.start + place) =
      (octets chars).drop place := by
  obtain ⟨before, after, whole, size, stop⟩ := slice?_eq_some.mp sliced
  have taken : (octets source.chars).take span.stop =
      octets (before ++ chars) := by
    rw [whole, ← List.append_assoc, octets_append (before ++ chars), stop,
      ← size, ← byteLength_append, ← length_octets, List.take_left]
  rw [taken, ← size, Marker.drop_octets_append]

theorem markers_eq (sliced : source.slice? span = some chars)
    (location : Location) :
    source.markers span location =
      ((Marker.scan (.ofLocation location) ⟨span.start, chars⟩).mapError
        fun failure =>
          source.error failure.span (.marker failure.problem)).map
            MarkedText.markers := by
  rw [markers, marked, slice_eq_ok.mpr sliced]
  rfl

/-- The markers under a span are found exactly. They stand in order inside the
span, apart from each other, each as the source spells it; at no byte outside of
them does a marker open that fits into the span. The markers cannot be read when
reading comes to one that is broken, and only then. -/
theorem markers_exact (sliced : source.slice? span = some chars)
    (location : Location) :
    (∀ markers, source.markers span location = .ok markers →
      markers.Pairwise (fun left right => left.span.stop ≤ right.span.start) ∧
      (∀ marker ∈ markers, span.start ≤ marker.span.start ∧
        marker.span.start < marker.span.stop ∧ marker.span.stop ≤ span.stop ∧
        source.slice? marker.span = some marker.raw.toList) ∧
      ∀ position, span.start ≤ position → position < span.stop →
        (∀ marker ∈ markers,
          ¬ (marker.span.start ≤ position ∧ position < marker.span.stop)) →
        ∀ opener ∈ Marker.openers,
          ¬ opener <+: ((octets source.chars).take span.stop).drop position) ∧
    ((∃ error, source.markers span location = .error error) ↔
      ∃ context rest, Marker.Reaches (.ofLocation location) chars context rest ∧
        Marker.Broken context.location rest) := by
  rw [markers_eq sliced location]
  constructor
  · intro markers read
    obtain ⟨marked, scanned, rfl⟩ := Except.map_eq_ok.mp read
    rw [Except.mapError_eq_ok] at scanned
    obtain ⟨spelled, placed⟩ := Marker.scan_spells scanned
    have here : source.slice? span = some marked.chars := by rwa [spelled]
    refine ⟨MarkedText.ordered_of_placed placed,
      MarkedText.spelled_of_placed here placed, ?_⟩
    intro position begun _ outside
    obtain ⟨place, rfl⟩ := Nat.exists_eq_add_of_le begun
    rw [drop_octets_slice sliced]
    exact Marker.scan_leaves_none scanned outside
  · cases scanned : Marker.scan (.ofLocation location) ⟨span.start, chars⟩ with
    | error failure =>
        exact ⟨fun _ => Marker.reaches_of_scan_error scanned, fun _ => ⟨_, rfl⟩⟩
    | ok marked =>
        constructor
        · rintro ⟨_, ⟨⟩⟩
        · rintro ⟨last, left, reaches, broken⟩
          obtain ⟨failure, failed⟩ := reaches.scan_error broken span.start
          cases scanned.symm.trans failed

/-- A brace before the braces belongs to the content, and other words behind a
dollar sign open nothing. A slot stands in text, but is broken in a value. -/
theorem markers_exact_slot :
    let source := ofText "é\x7b\x7b\x7b a \x7d\x7d$price(1)$slot('y')"
    let span : Span := ⟨2, 29⟩
    ∃ chars, source.slice? span = some chars ∧
      (∃ markers, source.markers span .text = .ok markers ∧
        markers.map (fun marker => (marker.raw, marker.span)) =
          [("\x7b\x7b\x7b a \x7d\x7d", ⟨2, 10⟩), ("$slot('y')", ⟨19, 29⟩)] ∧
        ∀ opener ∈ Marker.openers,
          ¬ opener <+: ((octets source.chars).take span.stop).drop 10) ∧
      ∃ context rest, Marker.Reaches (.ofLocation .tag) chars context rest ∧
        Marker.Broken context.location rest := by
  intro source span
  have sliced : source.slice? span =
      some "\x7b\x7b\x7b a \x7d\x7d$price(1)$slot('y')".toList := by
    decide +kernel
  refine ⟨_, sliced, ?_, ?_⟩
  · have listed : (source.markers span .text).map (fun markers =>
        markers.map fun marker => (marker.raw, marker.span)) =
        .ok [("\x7b\x7b\x7b a \x7d\x7d", ⟨2, 10⟩),
          ("$slot('y')", ⟨19, 29⟩)] := by decide +kernel
    obtain ⟨markers, read, shape⟩ := Except.map_eq_ok.mp listed
    refine ⟨markers, read, shape, ?_⟩
    apply ((markers_exact sliced .text).1 markers read).2.2 10 (by decide)
      (by decide)
    intro marker member
    have spans : markers.map Marker.span = [⟨2, 10⟩, ⟨19, 29⟩] := by
      have seconds := congrArg (List.map Prod.snd) shape
      rwa [List.map_map] at seconds
    have here : marker.span ∈ markers.map Marker.span :=
      List.mem_map_of_mem member
    rw [spans] at here
    rcases List.mem_cons.mp here with first | second
    · rw [first]
      decide
    · rw [List.mem_singleton.mp second]
      decide
  · apply (markers_exact sliced .tag).2.mp
    have refused : (source.markers span .tag).toBool = false := by
      decide +kernel
    cases read : source.markers span .tag with
    | error error => exact ⟨error, rfl⟩
    | ok markers =>
        rw [read] at refused
        cases refused

end Source

end Stencil
