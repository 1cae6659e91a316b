import Stencil.Proofs.Geometry
import Stencil.Proofs.Markers

namespace Stencil

open Text

/-! The contexts that a reading of the text comes through, from an origin that
is taken for text. Markers that are read from a later place on are read in these
contexts, as long as none changes inside a marker. -/

namespace Marker.Context

def across (context : Context) : List Char → List Char → Context
  | [], _ => context
  | char :: rest, behind =>
      (context.step char (rest ++ behind)).across rest behind

/-- The context is the same at every place among some characters, when the
others follow them. -/
def Lasts (context : Context) : List Char → List Char → Prop
  | [], _ => True
  | char :: rest, behind =>
      context.step char (rest ++ behind) = context ∧ context.Lasts rest behind

instance decidableLasts (context : Context) :
    (chars behind : List Char) → Decidable (context.Lasts chars behind)
  | [], _ => .isTrue trivial
  | char :: rest, behind =>
      have := decidableLasts context rest behind
      inferInstanceAs (Decidable
        (context.step char (rest ++ behind) = context ∧
          context.Lasts rest behind))

theorem across_append (context : Context) (left right behind : List Char) :
    context.across (left ++ right) behind =
      (context.across left (right ++ behind)).across right behind := by
  induction left generalizing context with
  | nil => rfl
  | cons char rest induction =>
      rw [List.cons_append, across, across, induction, List.append_assoc]

theorem lasts_append {context : Context} {left right behind : List Char} :
    context.Lasts (left ++ right) behind ↔
      context.Lasts left (right ++ behind) ∧ context.Lasts right behind := by
  induction left with
  | nil => simp [Lasts]
  | cons char rest induction =>
      rw [List.cons_append, Lasts, Lasts, induction, List.append_assoc,
        and_assoc]

theorem Lasts.across_eq {context : Context} {chars behind : List Char}
    (lasts : context.Lasts chars behind) :
    context.across chars behind = context := by
  induction chars with
  | nil => rfl
  | cons char rest induction => rw [across, lasts.1, induction lasts.2]

theorem step_of_head? (context : Context) (char : Char) {rest other : List Char}
    (same : rest.head? = other.head?) :
    context.step char rest = context.step char other := by
  cases context with
  | text => cases rest <;> cases other <;> simp_all [step, beginsTag]
  | tag | quoted | value => rfl

theorem across_closed (context : Context) (chars behind : List Char) :
    context.across (chars ++ ['>']) behind = context.across (chars ++ ['>'])
    [] := by
  induction chars generalizing context with
  | nil => cases context <;> rfl
  | cons char rest induction =>
      rw [List.cons_append, across, across, induction]
      congr 1
      exact step_of_head? _ _ (by cases rest <;> rfl)

def isMark (char : Char) : Bool :=
  char == '"' || char == '\''

def Unmarked (chars : List Char) : Prop :=
  ∀ char ∈ chars, isMark char = false

def Inert (chars : List Char) : Prop :=
  ∀ char ∈ chars, isMark char = false ∧ char ≠ '<' ∧ char ≠ '>'

instance decidableUnmarked (chars : List Char) : Decidable (Unmarked chars) :=
  List.decidableBAll _ chars

instance decidableInert (chars : List Char) : Decidable (Inert chars) :=
  List.decidableBAll _ chars

theorem tag_step_mark {mark : Char} (marks : isMark mark) (rest : List Char) :
    tag.step mark rest = quoted mark :=
  if_pos marks

theorem quoted_step_mark (mark : Char) (rest : List Char) :
    (quoted mark).step mark rest = tag :=
  if_pos (BEq.refl mark)

theorem lasts_of_step {context : Context} {chars : List Char}
    (behind : List Char)
    (same : ∀ char ∈ chars, ∀ rest, context.step char rest = context) :
    context.Lasts chars behind := by
  induction chars with
  | nil => trivial
  | cons char rest induction =>
      exact ⟨same char (List.mem_cons_self ..) _,
        induction fun other member =>
          same other (List.mem_cons_of_mem _ member)⟩

theorem tag_lasts {chars : List Char} (behind : List Char)
    (unmarked : Unmarked chars) (inside : '>' ∉ chars) :
    tag.Lasts chars behind := by
  refine lasts_of_step behind fun char member rest => ?_
  have quiet := unmarked char member
  have within : char ≠ '>' := fun same => inside (same ▸ member)
  unfold isMark at quiet
  simp [step, quiet, within]

theorem quoted_lasts {mark : Char} {chars : List Char} (behind : List Char)
    (inside : mark ∉ chars) : (quoted mark).Lasts chars behind := by
  refine lasts_of_step behind fun char member rest => ?_
  have within : char ≠ mark := fun same => inside (same ▸ member)
  simp [step, within]

theorem text_lasts {chars behind : List Char} (lasts : text.Lasts chars [])
    (edge : ∀ char ∈ behind.head?, char = '<') : text.Lasts chars behind := by
  induction chars with
  | nil => trivial
  | cons char rest induction =>
      refine ⟨?_, induction lasts.2⟩
      cases rest with
      | nil =>
          cases behind with
          | nil => exact lasts.1
          | cons next more =>
              obtain rfl : next = '<' := edge next rfl
              simp [step, beginsTag]
      | cons next more => exact lasts.1

/-- Only a quotation mark quotes. Every context that is reached from text is of
this kind. -/
def Proper : Context → Prop
  | .quoted mark => isMark mark
  | _ => True

theorem Proper.step {context : Context} (proper : context.Proper) (char : Char)
    (rest : List Char) : (context.step char rest).Proper := by
  fun_cases Context.step context char rest with
  | case3 marked => exact marked
  | case7 => exact proper
  | case1 | case2 | case4 | case5 | case6 | case8 => trivial

theorem Proper.across {context : Context} (proper : context.Proper)
    (chars behind : List Char) :
    (context.across chars behind).Proper := by
  induction chars generalizing context with
  | nil => exact proper
  | cons char rest induction => exact induction (proper.step char _)

theorem Proper.lasts {context : Context} (proper : context.Proper)
    {chars : List Char} (behind : List Char) (inert : Inert chars) :
    context.Lasts chars behind := by
  cases context with
  | text =>
      refine lasts_of_step behind fun char member rest => ?_
      simp [Context.step, beginsTag, (inert char member).2.1]
  | tag =>
      exact tag_lasts behind (fun char member => (inert char member).1)
        fun member => (inert '>' member).2.2 rfl
  | quoted mark =>
      refine quoted_lasts behind fun member => ?_
      have unmarked := (inert mark member).1
      rw [show isMark mark = true from proper] at unmarked
      cases unmarked
  | value => exact lasts_of_step behind fun _ _ _ => rfl

end Marker.Context

/-- Read as text from the origin on, the text comes to the cursor in the given
context. -/
def Cursor.LeadsTo (origin cursor : Cursor) (context : Marker.Context) : Prop :=
  ∃ before, origin.Reads before cursor ∧
    Marker.Context.text.across before cursor.rest = context

namespace Cursor

variable {origin cursor next : Cursor} {chars taken : List Char}
  {context other : Marker.Context}

theorem leadsTo_self (origin : Cursor) : origin.LeadsTo origin .text :=
  ⟨[], .refl origin, rfl⟩

theorem LeadsTo.stands (leads : origin.LeadsTo cursor context)
    (stands : origin.Stands chars) :
    cursor.Stands chars := by
  obtain ⟨before, reads, _⟩ := leads
  exact stands.reads reads

theorem LeadsTo.reads (leads : origin.LeadsTo cursor context)
    (reads : cursor.Reads taken next) :
    origin.LeadsTo next (context.across taken next.rest) := by
  obtain ⟨before, first, rfl⟩ := leads
  refine ⟨before ++ taken, first.trans reads, ?_⟩
  rw [Marker.Context.across_append, reads.1]

theorem LeadsTo.lasts (leads : origin.LeadsTo cursor context)
    (reads : cursor.Reads taken next) (lasts : context.Lasts taken next.rest) :
    origin.LeadsTo next context := by
  have moved := leads.reads reads
  rwa [lasts.across_eq] at moved

theorem LeadsTo.advance {char : Char} {rest : List Char}
    (leads : origin.LeadsTo cursor context)
    (head : cursor.rest = char :: rest) :
    origin.LeadsTo (cursor.advance 1) (context.step char rest) := by
  have left : (cursor.advance 1).rest = rest := by simp [Cursor.advance, head]
  have moved := leads.reads (reads_head head)
  rwa [left] at moved

theorem LeadsTo.proper (leads : origin.LeadsTo cursor context) :
    context.Proper := by
  obtain ⟨before, _, rfl⟩ := leads
  have start : Marker.Context.text.Proper := trivial
  exact start.across before _

theorem LeadsTo.context_eq (leads : origin.LeadsTo cursor context)
    (leads' : origin.LeadsTo next other) (same : cursor.offset = next.offset) :
    context = other := by
  obtain ⟨before, reads, rfl⟩ := leads
  obtain ⟨before', reads', rfl⟩ := leads'
  have size : byteLength before = byteLength before' := by
    have := reads.2
    have := reads'.2
    omega
  obtain ⟨rfl, rest⟩ := append_inj_of_byteLength (reads.1.symm.trans reads'.1)
    size
  rw [rest]

theorem Stands.eq_of_offset (stands : cursor.Stands chars)
    (stands' : next.Stands chars) (same : cursor.offset = next.offset) :
    cursor = next := by
  obtain ⟨before, rfl, size⟩ := stands
  obtain ⟨before', whole, size'⟩ := stands'
  obtain ⟨_, rest⟩ := append_inj_of_byteLength whole (by omega)
  cases cursor
  cases next
  simp_all

theorem Stands.exists_reads {stop : Nat} (stands : cursor.Stands chars)
    (slice : Text.slice? chars cursor.offset stop = some taken) :
    ∃ next, cursor.Reads taken next ∧ next.offset = stop := by
  obtain ⟨before, rfl, size⟩ := stands
  obtain ⟨before', after, whole, size', rfl⟩ := slice?_eq_some.mp slice
  obtain ⟨_, rest⟩ := append_inj_of_byteLength whole (by omega)
  exact ⟨⟨cursor.offset + byteLength taken, after⟩, ⟨rest, rfl⟩, rfl⟩

def followedBy (cursor : Cursor) (behind : List Char) : Cursor :=
  ⟨cursor.offset, cursor.rest ++ behind⟩

theorem Reads.followedBy (reads : cursor.Reads taken next)
    (behind : List Char) :
    (cursor.followedBy behind).Reads taken (next.followedBy behind) :=
  ⟨by rw [Cursor.followedBy, Cursor.followedBy, reads.1,
    List.append_assoc], reads.2⟩

end Cursor

/-- The context at an offset, for a reading from the origin on. -/
def ContextAt (origin : Cursor) (offset : Nat) (context : Marker.Context) :
    Prop :=
  ∃ rest, origin.LeadsTo ⟨offset, rest⟩ context

def ContextOver (origin : Cursor) (span : Span) (context : Marker.Context) :
    Prop :=
  ∃ (cursor next : Cursor) (taken : List Char), origin.LeadsTo cursor context ∧
    cursor.Reads taken next ∧ context.Lasts taken next.rest ∧
    span = ⟨cursor.offset, next.offset⟩

section Places

variable {origin : Cursor} {chars part : List Char}
  {context other : Marker.Context}

theorem Cursor.LeadsTo.contextAt {cursor : Cursor}
    (leads : origin.LeadsTo cursor context) :
    ContextAt origin cursor.offset context :=
  ⟨cursor.rest, leads⟩

theorem ContextAt.leadsTo {cursor : Cursor}
    (here : ContextAt origin cursor.offset context)
    (stands : origin.Stands chars) (placed : cursor.Stands chars) :
    origin.LeadsTo cursor context := by
  obtain ⟨rest, leads⟩ := here
  rwa [(leads.stands stands).eq_of_offset placed rfl] at leads

theorem ContextAt.context_eq {offset : Nat}
    (first : ContextAt origin offset context)
    (second : ContextAt origin offset other) : context = other := by
  obtain ⟨_, leads⟩ := first
  obtain ⟨_, leads'⟩ := second
  exact leads.context_eq leads' rfl

theorem ContextAt.proper {offset : Nat}
    (here : ContextAt origin offset context) :
    context.Proper := by
  obtain ⟨_, leads⟩ := here
  exact leads.proper

theorem ContextAt.lasts {span : Span}
    (here : ContextAt origin span.start context) (stands : origin.Stands chars)
    (slice : slice? chars span.start span.stop = some part)
    (lasts : ∀ behind, context.Lasts part behind) :
    ContextAt origin span.stop context := by
  obtain ⟨rest, leads⟩ := here
  obtain ⟨next, reads, stop⟩ := (leads.stands stands).exists_reads slice
  rw [← stop]
  exact (leads.lasts reads (lasts next.rest)).contextAt

theorem ContextOver.contextAt {outer inner : Span}
    (around : ContextOver origin outer context) (stands : origin.Stands chars)
    (covers : outer.covers inner)
    (slice : slice? chars inner.start inner.stop = some part) :
    ContextAt origin inner.start context ∧
    ContextAt origin inner.stop context := by
  obtain ⟨cursor, next, taken, leads, reads, lasts, rfl⟩ := around
  rw [Span.covers_iff] at covers
  have inside := slice?_within ((leads.stands stands).slice? reads) slice
    covers.1 covers.2
  obtain ⟨gap, tail, rfl, size, _⟩ := slice?_eq_some.mp inside
  rw [Marker.Context.lasts_append, Marker.Context.lasts_append] at lasts
  have first : cursor.Reads gap ⟨inner.start, part ++ tail ++ next.rest⟩ :=
    ⟨by rw [reads.1, List.append_assoc], by dsimp only at *; omega⟩
  have reached := leads.lasts first lasts.1
  obtain ⟨second, passed, stop⟩ := (reached.stands stands).exists_reads slice
  refine ⟨reached.contextAt, ?_⟩
  rw [← stop]
  refine (reached.lasts passed ?_).contextAt
  have rest : part ++ tail ++ next.rest = part ++ second.rest := passed.1
  rw [List.append_assoc, List.append_cancel_left_eq] at rest
  rw [← rest]
  exact lasts.2.1

end Places

namespace Marker

theorem rune_read?_location {location : Location} {cursor next : Cursor}
    {rune : Rune}
    (read : Rune.read? location cursor = .ok (some (rune, next))) :
    rune.location = location := by
  unfold Rune.read? at read
  dsimp only at read
  repeat' split at read
  all_goals cases read
  rfl

theorem interpolation_read_location {location : Location} {cursor next : Cursor}
    {interpolation : Interpolation}
    (read : Interpolation.read location cursor = .ok (interpolation, next)) :
    interpolation.location = location := by
  unfold Interpolation.read at read
  dsimp only at read
  repeat' split at read
  all_goals cases read
  rfl

theorem read?_location {location : Location} {cursor next : Cursor}
    {marker : Marker}
    (read : read? location cursor = .ok (some (marker, next))) :
    marker.location = location := by
  unfold read? at read
  split at read
  · obtain ⟨⟨inner, after⟩, found, same⟩ := Except.map_eq_ok.mp read
    obtain ⟨rfl, rfl⟩ := Prod.mk.inj (Option.some.inj same)
    exact interpolation_read_location found
  · obtain ⟨found, ran, mapped⟩ := Except.map_eq_ok.mp read
    obtain ⟨⟨inner, after⟩, rfl, same⟩ := Option.map_eq_some_iff.mp mapped
    obtain ⟨rfl, rfl⟩ := Prod.mk.inj same
    exact rune_read?_location ran

theorem scan_of_done {context : Context} {cursor : Cursor}
    (done : cursor.rest = []) :
    scan context cursor = .ok ⟨[], []⟩ := by
  fun_cases scan context cursor with
  | case1 => rfl
  | case2 | case3 | case4 => simp_all

/-- The markers of a part of the text are read in the contexts that an earlier
origin gives them, where the context in front of each is also that behind it. -/
theorem scan_locates {origin cursor : Cursor} {behind : List Char}
    {context : Context} {marked : MarkedText}
    (scanned : scan context cursor = .ok marked)
    (leads : origin.LeadsTo (cursor.followedBy behind) context)
    (steady : ∀ marker ∈ marked.markers, ∀ around,
      ContextAt origin marker.span.start around →
      ContextAt origin marker.span.stop around) :
    ∀ marker ∈ marked.markers,
      ∃ around, ContextAt origin marker.span.start around ∧
        around.location = marker.location := by
  fun_induction scan context cursor generalizing marked with
  | case1 =>
      cases scanned
      simp [MarkedText.markers]
  | case2 => cases scanned
  | case3 context cursor char rest _ marker next read induction =>
      obtain ⟨inner, inner_eq, rfl⟩ := Except.map_eq_ok.mp scanned
      have spans := read?_spans read
      have here : ContextAt origin marker.span.start context := by
        rw [spans.span_eq]
        exact leads.contextAt
      have after : ContextAt origin next.offset context := by
        have passed := steady marker (List.mem_cons_self ..) context here
        rwa [spans.span_eq] at passed
      have moved := leads.reads (spans.reads.followedBy behind)
      rw [moved.contextAt.context_eq after] at moved
      rintro other (_ | ⟨_, member⟩)
      · exact ⟨context, here, (read?_location read).symm⟩
      · exact induction inner_eq moved
          (fun other member => steady other (List.mem_cons_of_mem _ member))
            other member
  | case4 context cursor char rest found read induction =>
      obtain ⟨inner, inner_eq, rfl⟩ := Except.map_eq_ok.mp scanned
      cases rest with
      | nil =>
          rw [scan_of_done (by simp [Cursor.advance, found])] at inner_eq
          cases inner_eq
          simp [MarkedText.markers]
      | cons second more =>
          have moved :=
            leads.reads ((Cursor.reads_head found).followedBy behind)
          have same : context.across [char]
                ((cursor.advance 1).followedBy behind).rest =
              context.step char (second :: more) :=
            context.step_of_head? char
              (by simp [Cursor.followedBy, Cursor.advance, found])
          rw [same] at moved
          have located := induction inner_eq moved
          exact located steady

end Marker

end Stencil
