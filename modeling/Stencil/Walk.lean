namespace Stencil.Walk

variable {α β : Type}

def total (size : α → Nat) : List α → Nat
  | [] => 0
  | item :: rest => size item + total size rest

theorem total_append (size : α → Nat) (upper lower : List α) :
    total size (upper ++ lower) = total size upper + total size lower := by
  induction upper with
  | nil => simp [total]
  | cons item rest induction =>
      rw [List.cons_append, total, total, induction, Nat.add_assoc]

theorem total_map (size : β → Nat) (f : α → β) (items : List α) :
    total size (items.map f) = total (fun item => size (f item)) items := by
  induction items with
  | nil => rfl
  | cons item rest induction => rw [List.map_cons, total, total, induction]

/-- Lists what a stack holds, from the top, and behind each item what is below
it. Nothing below an item weighs as much as the item, so the listing ends. -/
def list (below : α → List α) (size : α → Nat)
    (shrinks : ∀ item, total size (below item) < size item) (stack : List α) :
    List α :=
  match stack with
  | [] => []
  | item :: rest => item :: list below size shrinks (below item ++ rest)
termination_by total size stack
decreasing_by
  have := shrinks item
  rw [total_append, total]
  omega

end Stencil.Walk
