import Stencil.Proofs.Clipping
import Stencil.Proofs.Drafts

namespace Stencil

/-! Spans only mark places. Tokens that are counted from further ahead make the
same tree, counted from there. -/

mutual
def Node.shift (origin : Nat) : Node → Node
  | .element tag tagSpan span children =>
      .element (tag.shift origin) (tagSpan.shift origin) (span.shift origin)
        (forestShift origin children)
  | .text span => .text (span.shift origin)
  | .comment span => .comment (span.shift origin)
  | .doctype span => .doctype (span.shift origin)

def Node.forestShift (origin : Nat) : List Node → List Node
  | [] => []
  | node :: rest => node.shift origin :: forestShift origin rest
end

theorem Node.forestShift_eq_map (origin : Nat) (nodes : List Node) :
    forestShift origin nodes = nodes.map (shift origin) := by
  induction nodes with
  | nil => rfl
  | cons node rest induction =>
      exact congrArg (node.shift origin :: ·) induction

theorem Token.leaf?_shift (token : Token) (origin : Nat) :
    (token.shift origin).leaf? = token.leaf?.map (Node.shift origin) := by
  obtain ⟨kind, span⟩ := token
  cases kind with
  | startTag tag =>
      exact (apply_ite (Option.map (Node.shift origin)) (tag.isSingle = true)
        (some (.element tag span span [])) none).symm
  | endTag | text | comment | doctype | eof => rfl

namespace Document

namespace Opened

def shift (origin : Nat) (opened : Opened) : Opened :=
  ⟨opened.tag.shift origin, opened.tagSpan.shift origin,
    opened.children.map (Node.shift origin)⟩

variable (origin : Nat)

theorem holding_shift (opened : Opened) (inside : Option Node) :
    (opened.holding inside).shift origin =
      (opened.shift origin).holding (inside.map (Node.shift origin)) := by
  cases inside with
  | none => rfl
  | some node =>
      simp only [holding, shift, Option.map_some, List.map_append,
        List.map_cons,
      List.map_nil]

theorem ended_shift (opened : Opened) (stop : Nat) :
    (opened.ended stop).shift origin =
      (opened.shift origin).ended (origin + stop) := by
  simp only [ended, shift, Node.shift, Node.forestShift_eq_map, Span.shift,
    Nat.add_max_add_left]

theorem nest_shift (stop : Nat) (inside : Option Node) (inner : List Opened) :
    (nest stop inside inner).map (Node.shift origin) =
      nest (origin + stop) (inside.map (Node.shift origin))
        (inner.map (shift origin)) := by
  induction inner generalizing inside with
  | nil => rfl
  | cons opened around induction =>
      rw [nest, induction, Option.map_some, ended_shift, holding_shift]
      rfl

end Opened

namespace Draft

def shift (origin : Nat) (draft : Draft) : Draft :=
  ⟨draft.opened.map (Opened.shift origin), draft.nodes.map (Node.shift origin)⟩

variable {origin : Nat} {draft next : Draft} {token : Token}
  {tokens : List Token}

theorem add_shift (draft : Draft) (node : Node) (origin : Nat) :
    (draft.add node).shift origin =
      (draft.shift origin).add (node.shift origin) := by
  obtain ⟨opened, nodes⟩ := draft
  cases opened with
  | nil => simp only [add, shift, List.map_append, List.map_cons, List.map_nil]
  | cons top below =>
      simp only [add, shift, Opened.shift, List.map_append, List.map_cons,
        List.map_nil]

theorem ended_shift (draft : Draft) (stop origin : Nat) :
    (draft.ended stop).shift origin =
      (draft.shift origin).ended (origin + stop) := by
  unfold ended
  rw [shift, List.map_append, ← Option.toList_map, Opened.nest_shift]
  rfl

theorem Takes.of_shift
    (takes : (draft.shift origin).Takes (token.shift origin) next) :
    ∃ inside, draft.Takes token inside ∧ next = inside.shift origin := by
  have leaf : ∀ node, (token.shift origin).leaf? = some node →
      ∃ inside, draft.Takes token inside ∧
        (draft.shift origin).add node = inside.shift origin := by
    intro node made
    rw [Token.leaf?_shift] at made
    obtain ⟨plain, unshifted, rfl⟩ := Option.map_eq_some_iff.mp made
    exact ⟨draft.add plain, .leaf unshifted,
      (add_shift draft plain origin).symm⟩
  obtain ⟨kind, span⟩ := token
  cases kind with
  | startTag tag =>
      change (draft.shift origin).Takes
        ⟨.startTag (tag.shift origin), span.shift origin⟩ next
        at takes
      cases takes with
      | leaf made => exact leaf _ made
      | opens paired =>
          exact ⟨⟨⟨tag, span, []⟩ :: draft.opened, draft.nodes⟩, .opens paired,
            rfl⟩
  | endTag name =>
      change (draft.shift origin).Takes ⟨.endTag name, span.shift origin⟩ next
        at takes
      cases takes with
      | leaf made => cases made
      | closes shape same others =>
          obtain ⟨inner, rest, split, rfl, behind⟩ :=
            List.map_eq_append_iff.mp shape
          obtain ⟨top, outer, rfl, rfl, rfl⟩ := List.map_eq_cons_iff.mp behind
          refine ⟨_, .closes split same (fun opened member =>
            others (opened.shift origin) (List.mem_map_of_mem member)), ?_⟩
          rw [add_shift, Opened.ended_shift, Opened.holding_shift,
            Opened.nest_shift]
          rfl
      | passes isVoid unopened =>
          exact ⟨draft, .passes isVoid fun opened member =>
            unopened (opened.shift origin) (List.mem_map_of_mem member), rfl⟩
  | eof =>
      change (draft.shift origin).Takes ⟨.eof, span.shift origin⟩ next at takes
      cases takes with
      | leaf made => cases made
      | ends => exact ⟨_, .ends, (ended_shift draft span.stop origin).symm⟩
  | text | comment | doctype =>
      cases takes with
      | leaf made => exact leaf _ made

theorem Runs.of_shift
    (runs :
      (draft.shift origin).Runs (tokens.map fun token => token.shift origin)
        next) :
    ∃ inside, draft.Runs tokens inside ∧ next = inside.shift origin := by
  induction tokens generalizing draft with
  | nil =>
      cases runs
      exact ⟨draft, .done draft, rfl⟩
  | cons token rest induction =>
      cases runs with
      | step here behind =>
          obtain ⟨middle, takes, rfl⟩ := here.of_shift
          obtain ⟨inside, onward, same⟩ := induction behind
          exact ⟨inside, .step takes onward, same⟩

end Draft

end Document

end Stencil
