import Stencil.Source

namespace Stencil.Text

/-! A text is cut at byte offsets. A cut that exists is unique, because every
character takes at least one byte. -/

theorem byteLength_eq_zero {chars : List Char} :
    byteLength chars = 0 ↔ chars = [] := by
  cases chars with
  | nil => simp
  | cons char rest =>
      have := char.utf8Size_pos
      simp only [byteLength_cons, reduceCtorEq, iff_false]
      omega

theorem byteLength_pos {chars : List Char} (more : chars ≠ []) :
    0 < byteLength chars :=
  Nat.pos_of_ne_zero fun zero => more (byteLength_eq_zero.mp zero)

theorem append_inj_of_byteLength {left left' right right' : List Char}
    (same : left ++ right = left' ++ right')
    (size : byteLength left = byteLength left') :
    left = left' ∧ right = right' := by
  induction left generalizing left' with
  | nil =>
      have : left' = [] := byteLength_eq_zero.mp size.symm
      subst this
      exact ⟨rfl, same⟩
  | cons char rest induction =>
      cases left' with
      | nil => exact absurd (byteLength_eq_zero.mp size) (List.cons_ne_nil _ _)
      | cons char' rest' =>
          simp only [List.cons_append, List.cons.injEq] at same
          obtain ⟨rfl, same⟩ := same
          simp only [byteLength_cons, Nat.add_left_cancel_iff] at size
          obtain ⟨rfl, rest_eq⟩ := induction same size
          exact ⟨rfl, rest_eq⟩

theorem dropBytes?_append (before after : List Char) :
    dropBytes? (before ++ after) (byteLength before) = some after := by
  induction before with
  | nil => simp [dropBytes?]
  | cons char rest induction =>
      have positive := char.utf8Size_pos
      rw [List.cons_append, byteLength_cons, dropBytes?]
      · rw [if_pos (Nat.le_add_right _ _), Nat.add_sub_cancel_left, induction]
      · intro zero
        omega

theorem exists_of_dropBytes? {chars rest : List Char} {count : Nat}
    (drop : dropBytes? chars count = some rest) :
    ∃ before, chars = before ++ rest ∧ byteLength before = count := by
  fun_induction dropBytes? chars count with
  | case1 chars =>
      cases drop
      exact ⟨[], rfl, rfl⟩
  | case2 => cases drop
  | case3 char tail count _ fits induction =>
      obtain ⟨before, rfl, size⟩ := induction drop
      exact ⟨char :: before, rfl, by rw [byteLength_cons, size]; omega⟩
  | case4 => cases drop

theorem takeBytes?_append (before after : List Char) :
    takeBytes? (before ++ after) (byteLength before) = some before := by
  induction before with
  | nil => simp [takeBytes?]
  | cons char rest induction =>
      have positive := char.utf8Size_pos
      rw [List.cons_append, byteLength_cons, takeBytes?]
      · rw [if_pos (Nat.le_add_right _ _), Nat.add_sub_cancel_left, induction]
        rfl
      · intro zero
        omega

theorem exists_of_takeBytes? {chars taken : List Char} {count : Nat}
    (take : takeBytes? chars count = some taken) :
    ∃ after, chars = taken ++ after ∧ byteLength taken = count := by
  fun_induction takeBytes? chars count generalizing taken with
  | case1 chars =>
      cases take
      exact ⟨chars, rfl, rfl⟩
  | case2 => cases take
  | case3 char tail count _ fits induction =>
      obtain ⟨inner, taken_eq, rfl⟩ := Option.map_eq_some_iff.mp take
      obtain ⟨after, rfl, size⟩ := induction taken_eq
      exact ⟨after, rfl, by rw [byteLength_cons, size]; omega⟩
  | case4 => cases take

theorem slice?_eq_some {chars middle : List Char} {start stop : Nat} :
    slice? chars start stop = some middle ↔
      ∃ before after, chars = before ++ (middle ++ after) ∧
        byteLength before = start ∧
        stop = start + byteLength middle := by
  constructor
  · intro slice
    unfold slice? at slice
    split at slice
    · rename_i ordered
      obtain ⟨rest, drop, take⟩ := Option.bind_eq_some_iff.mp slice
      obtain ⟨before, rfl, size⟩ := exists_of_dropBytes? drop
      obtain ⟨after, rfl, middle_size⟩ := exists_of_takeBytes? take
      exact ⟨before, after, rfl, size, by omega⟩
    · cases slice
  · rintro ⟨before, after, rfl, rfl, rfl⟩
    rw [slice?, if_pos (Nat.le_add_right _ _), dropBytes?_append,
      Option.bind_some, Nat.add_sub_cancel_left, takeBytes?_append]

theorem slice?_le {chars middle : List Char} {start stop : Nat}
    (slice : slice? chars start stop = some middle) : start ≤ stop := by
  obtain ⟨_, _, _, _, rfl⟩ := slice?_eq_some.mp slice
  exact Nat.le_add_right _ _

theorem slice?_append {chars left right : List Char} {start middle stop : Nat}
    (first : slice? chars start middle = some left)
    (second : slice? chars middle stop = some right) :
    slice? chars start stop = some (left ++ right) := by
  obtain ⟨before, after, rfl, rfl, rfl⟩ := slice?_eq_some.mp first
  obtain ⟨before', after', same, size, rfl⟩ := slice?_eq_some.mp second
  have heads : before ++ left = before' ∧ after = right ++ after' := by
    refine append_inj_of_byteLength ?_ ?_
    · rw [List.append_assoc]
      exact same
    · rw [byteLength_append, size]
  obtain ⟨_, rfl⟩ := heads
  refine slice?_eq_some.mpr ⟨before, after', ?_, rfl, ?_⟩
  · rw [List.append_assoc]
  · rw [byteLength_append, Nat.add_assoc]

theorem slice?_split {chars left right : List Char} {start stop : Nat}
    (whole : slice? chars start stop = some (left ++ right)) :
    slice? chars start (start + byteLength left) = some left ∧
      slice? chars (start + byteLength left) stop = some right := by
  obtain ⟨before, after, rfl, rfl, rfl⟩ := slice?_eq_some.mp whole
  refine ⟨slice?_eq_some.mpr ⟨before, right ++ after, by simp, rfl, rfl⟩,
    slice?_eq_some.mpr ⟨before ++ left, after,
      by simp, by rw [byteLength_append], ?_⟩⟩
  rw [byteLength_append, Nat.add_assoc]

@[simp] theorem slice?_whole (chars : List Char) :
    slice? chars 0 (byteLength chars) = some chars :=
  slice?_eq_some.mpr ⟨[], [], by simp, rfl, by simp⟩

/-- The offset lies between two characters of the text, or at one of its
ends. -/
def IsCut (chars : List Char) (offset : Nat) : Prop :=
  ∃ before after, chars = before ++ after ∧ byteLength before = offset

theorem isCut_zero (chars : List Char) : IsCut chars 0 := ⟨[], chars, rfl, rfl⟩

theorem isCut_of_slice? {chars middle : List Char} {start stop : Nat}
    (slice : slice? chars start stop = some middle) :
    IsCut chars start ∧ IsCut chars stop := by
  obtain ⟨before, after, rfl, rfl, rfl⟩ := slice?_eq_some.mp slice
  refine ⟨⟨before, middle ++ after, rfl, rfl⟩,
    ⟨before ++ middle, after, ?_, ?_⟩⟩
  · rw [List.append_assoc]
  · rw [byteLength_append]

theorem IsCut.slice?_self {chars : List Char} {offset : Nat}
    (cut : IsCut chars offset) :
    slice? chars offset offset = some [] := by
  obtain ⟨before, after, whole, size⟩ := cut
  exact slice?_eq_some.mpr ⟨before, after, whole, size, rfl⟩

theorem prefix_of_byteLength_le {left left' right right' : List Char}
    (same : left ++ right = left' ++ right')
    (size : byteLength left ≤ byteLength left') :
    ∃ middle, left' = left ++ middle := by
  induction left generalizing left' with
  | nil => exact ⟨left', rfl⟩
  | cons char rest induction =>
      cases left' with
      | nil =>
          have := byteLength_pos (List.cons_ne_nil char rest)
          rw [byteLength_nil] at size
          omega
      | cons char' rest' =>
          simp only [List.cons_append, List.cons.injEq] at same
          obtain ⟨rfl, same⟩ := same
          simp only [byteLength_cons, Nat.add_le_add_iff_left] at size
          obtain ⟨middle, rfl⟩ := induction same size
          exact ⟨middle, rfl⟩

theorem slice?_within {chars outer inner : List Char}
    {start stop first last : Nat} (whole : slice? chars start stop = some outer)
    (part : slice? chars first last = some inner) (after : start ≤ first)
    (before : last ≤ stop) :
    slice? outer (first - start) (last - start) = some inner := by
  obtain ⟨lead, rest, rfl, rfl, rfl⟩ := slice?_eq_some.mp whole
  obtain ⟨lead', rest', same, rfl, rfl⟩ := slice?_eq_some.mp part
  obtain ⟨gap, rfl⟩ := prefix_of_byteLength_le same after
  rw [List.append_assoc, List.append_cancel_left_eq, ← List.append_assoc]
    at same
  rw [byteLength_append] at before ⊢
  obtain ⟨more, rfl⟩ := prefix_of_byteLength_le same.symm
    (by rw [byteLength_append]; omega)
  refine slice?_eq_some.mpr ⟨gap, more, by rw [List.append_assoc], ?_, ?_⟩ <;>
    omega

theorem IsCut.exists_slice? {chars : List Char} {start stop : Nat}
    (first : IsCut chars start) (second : IsCut chars stop)
    (ordered : start ≤ stop) :
    ∃ middle, slice? chars start stop = some middle := by
  obtain ⟨before, after, rfl, rfl⟩ := first
  obtain ⟨before', after', same, rfl⟩ := second
  obtain ⟨middle, rfl⟩ := prefix_of_byteLength_le same ordered
  rw [List.append_assoc, List.append_cancel_left_eq] at same
  subst same
  exact ⟨middle, slice?_eq_some.mpr ⟨before, after', rfl, rfl,
    by rw [byteLength_append]⟩⟩

end Stencil.Text
