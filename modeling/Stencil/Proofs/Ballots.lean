import Stencil.Proofs.Building

namespace Stencil.Construct

/-! An `_else` needs an `_if` of its own before it, so the constructs up to any
place hold no more `_else` than `_if` constructs on a condition. -/

def conditionals (condition : String) (constructs : List Construct) : Nat :=
  constructs.countP fun construct => construct.kind = .conditional condition

def alternatives (condition : String) (constructs : List Construct) : Nat :=
  constructs.countP fun construct => construct.kind = .alternative condition

/-- No condition has more `_else` than `_if` constructs. -/
def Balanced (constructs : List Construct) : Prop :=
  ∀ condition, alternatives condition constructs ≤
    conditionals condition constructs

/-- The construct is the last one of the shortest beginning that is not
balanced. -/
structure Overdraws (constructs before : List Construct)
    (construct : Construct) : Prop where
  inside : before ++ [construct] <+: constructs
  unbalanced : ¬ Balanced (before ++ [construct])
  shortest : ∀ other, other <+: constructs → ¬ Balanced other →
    before.length < other.length

section Pending

variable {pending marked : List Pending} {condition : String}

def waiting (condition : String) (pending : List Pending) : Nat :=
  pending.countP fun entry =>
    entry.condition = condition ∧ entry.answered = false

theorem waiting_cons (other : String) (entry : Pending) :
    waiting other (entry :: pending) = waiting other pending +
      if entry.condition = other ∧ entry.answered = false then 1 else 0 := by
  simp [waiting, List.countP_cons]

theorem answer?_eq_none_iff :
    answer? condition pending = none ↔ waiting condition pending = 0 := by
  induction pending with
  | nil => simp [answer?, waiting]
  | cons entry earlier induction =>
      rw [answer?, waiting_cons]
      split <;> simp [*]

theorem answer?_eq_some (answers : answer? condition pending = some marked) :
    marked.map Pending.condition = pending.map Pending.condition ∧
      ∀ other, waiting other pending =
        waiting other marked + if condition = other then 1 else 0 := by
  induction pending generalizing marked with
  | nil => cases answers
  | cons entry earlier induction =>
      rw [answer?] at answers
      split at answers
      case isTrue here =>
        obtain rfl := Option.some.inj answers
        refine ⟨rfl, fun other => ?_⟩
        rw [waiting_cons, waiting_cons, here.1, here.2]
        simp
      case isFalse =>
        obtain ⟨behind, later, rfl⟩ := Option.map_eq_some_iff.mp answers
        obtain ⟨conditions, counts⟩ := induction later
        refine ⟨by rw [List.map_cons, List.map_cons, conditions],
          fun other => ?_⟩
        rw [waiting_cons, waiting_cons, counts other]
        omega

end Pending

section Tallies

variable {before : List Construct} {construct : Construct}
  {pending marked : List Pending} {condition : String}

theorem conditionals_concat (other : String) :
    conditionals other (before ++ [construct]) =
      conditionals other before +
        if construct.kind = .conditional other then 1 else 0 := by
  simp [conditionals, List.countP_append, List.countP_singleton]

theorem alternatives_concat (other : String) :
    alternatives other (before ++ [construct]) =
      alternatives other before +
        if construct.kind = .alternative other then 1 else 0 := by
  simp [alternatives, List.countP_append, List.countP_singleton]

/-- What is kept of the constructs before a place: the conditions that have an
`_if`, and how often an `_if` on each of them waits for its `_else`. -/
structure Tallied (before : List Construct) (pending : List Pending) :
    Prop where
  seen_iff : ∀ condition, condition ∈ pending.map Pending.condition ↔
    ∃ earlier ∈ before, earlier.kind = .conditional condition
  count_eq : ∀ condition,
    waiting condition pending + alternatives condition before =
      conditionals condition before

theorem Tallied.nil : Tallied [] [] :=
  ⟨by simp, fun _ => rfl⟩

theorem Tallied.balanced (tallied : Tallied before pending) :
    Balanced before := by
  intro condition
  have counted := tallied.count_eq condition
  omega

theorem Tallied.conditional (tallied : Tallied before pending)
    (kind : construct.kind = .conditional condition) :
    Tallied (before ++ [construct]) (⟨condition, false⟩ :: pending) := by
  constructor
  · intro other
    rw [List.map_cons, List.mem_cons, tallied.seen_iff]
    simp [kind, or_and_right, exists_or, or_comm, eq_comm]
  · intro other
    have counted := tallied.count_eq other
    rw [conditionals_concat, alternatives_concat, kind, waiting_cons]
    by_cases same : condition = other
    · simp [same]
      omega
    · simp [same]
      omega

theorem Tallied.alternative (tallied : Tallied before pending)
    (kind : construct.kind = .alternative condition)
    (answers : answer? condition pending = some marked) :
    Tallied (before ++ [construct]) marked := by
  obtain ⟨conditions, counts⟩ := answer?_eq_some answers
  constructor
  · intro other
    rw [conditions, tallied.seen_iff]
    simp [kind, or_and_right, exists_or]
  · intro other
    have counted := tallied.count_eq other
    rw [counts other] at counted
    rw [conditionals_concat, alternatives_concat, kind]
    by_cases same : condition = other
    · simp [same] at counted ⊢
      omega
    · simp [same] at counted ⊢
      omega

theorem Tallied.other (tallied : Tallied before pending)
    (neither : ∀ condition, construct.kind ≠ .conditional condition ∧
      construct.kind ≠ .alternative condition) :
    Tallied (before ++ [construct]) pending := by
  constructor
  · intro other
    rw [tallied.seen_iff]
    simp [(neither other).1, or_and_right, exists_or]
  · intro other
    rw [conditionals_concat, alternatives_concat, if_neg (neither other).1,
      if_neg (neither other).2]
    exact tallied.count_eq other

theorem Tallied.unbalanced (tallied : Tallied before pending)
    (kind : construct.kind = .alternative condition)
    (alone : answer? condition pending = none) :
    ¬ Balanced (before ++ [construct]) := by
  intro balanced
  have counted := tallied.count_eq condition
  have exceeded := balanced condition
  rw [answer?_eq_none_iff.mp alone] at counted
  rw [conditionals_concat, alternatives_concat, kind, if_pos rfl,
    if_neg (by simp)] at exceeded
  omega

end Tallies

section Verdicts

variable {before rest : List Construct} {construct : Construct}
  {pending : List Pending}

theorem Overdraws.not_ballot {constructs : List Construct}
    (overdraws : Overdraws constructs before construct) :
    ¬ ∀ before, before <+: constructs → Balanced before :=
  fun ballot => overdraws.unbalanced (ballot _ overdraws.inside)

inductive Verdict (constructs : List Construct) : Option Unpaired → Prop
  | accepted (ballot : ∀ before, before <+: constructs → Balanced before) :
      Verdict constructs none
  | answered {before : List Construct} {construct : Construct}
      {condition : String}
      (kind : construct.kind = .alternative condition)
      (overdraws : Overdraws constructs before construct)
      (preceded : ∃ earlier ∈ before, earlier.kind = .conditional condition) :
      Verdict constructs (some ⟨construct, .elseAnswered condition⟩)
  | unpaired {before : List Construct} {construct : Construct}
      {condition : String}
      (kind : construct.kind = .alternative condition)
      (overdraws : Overdraws constructs before construct)
      (alone : ¬ ∃ earlier ∈ before, earlier.kind = .conditional condition) :
      Verdict constructs (some ⟨construct, .elseUnpaired condition⟩)

theorem overdraws_of_unbalanced (rest : List Construct)
    (ballot : ∀ other, other <+: before → Balanced other)
    (unbalanced : ¬ Balanced (before ++ [construct])) :
    Overdraws (before ++ construct :: rest) before construct := by
  refine ⟨⟨rest, by simp⟩, unbalanced, ?_⟩
  intro other inside violates
  by_contra short
  exact violates (ballot other
    (List.prefix_of_prefix_length_le inside (List.prefix_append ..)
      (Nat.le_of_not_lt short)))

theorem verdict_unpairedAfter (tallied : Tallied before pending)
    (ballot : ∀ other, other <+: before → Balanced other) :
    Verdict (before ++ rest) (unpairedAfter pending rest) := by
  induction rest generalizing before pending with
  | nil =>
      rw [List.append_nil]
      exact .accepted ballot
  | cons construct rest induction =>
      have onward : ∀ pending, Tallied (before ++ [construct]) pending →
          Verdict (before ++ construct :: rest)
            (unpairedAfter pending rest) := by
        intro pending passed
        rw [List.append_cons]
        refine induction passed fun other inside => ?_
        rcases List.prefix_concat_iff.mp inside with rfl | earlier
        · exact passed.balanced
        · exact ballot other earlier
      rw [unpairedAfter]
      cases kind : construct.kind with
      | conditional condition => exact onward _ (tallied.conditional kind)
      | alternative condition =>
          dsimp only
          cases answers : answer? condition pending with
          | some marked => exact onward _ (tallied.alternative kind answers)
          | none =>
              have overdraws := overdraws_of_unbalanced rest ballot
                (tallied.unbalanced kind answers)
              dsimp only
              split
              case isTrue known =>
                exact .answered kind overdraws
                  ((tallied.seen_iff condition).mp known)
              case isFalse unknown =>
                exact .unpaired kind overdraws
                  (mt (tallied.seen_iff condition).mpr unknown)
      | component | loop | placeholder | slot =>
          exact onward _ (tallied.other fun condition => by simp [kind])

end Verdicts

theorem message_elseUnpaired_ne (condition : String) :
    (TemplateError.Cause.elseUnpaired condition).message ≠
      (TemplateError.Cause.elseAnswered condition).message := by
  unfold TemplateError.Cause.message
  intro same
  have letters := congrArg String.toList same
  simp only [String.toList_append, String.reduceToList] at letters
  cases letters

/-- Constructs are accepted if and only if everything up to each place is
balanced. Otherwise the error stands at the last construct of the shortest part
that is not, and its message tells whether an `_if` on the condition comes
before. -/
theorem requirePairs_ballot (source : Source) (constructs : List Construct) :
    (requirePairs source constructs = .ok () ↔
      ∀ before, before <+: constructs → Balanced before) ∧
    ∀ error, requirePairs source constructs = .error error →
      ∃ before construct condition cause,
        Overdraws constructs before construct ∧
        construct.kind = .alternative condition ∧
        error = source.error construct.span cause ∧
        (cause = .elseAnswered condition ∨ cause = .elseUnpaired condition) ∧
        (error.detail = "`_if=\"" ++ condition ++ "\"` already has an `_else`" ↔
          ∃ earlier ∈ before, earlier.kind = .conditional condition) := by
  have verdict : Verdict constructs (unpaired? constructs) :=
    verdict_unpairedAfter .nil fun other inside => by
      rw [List.prefix_nil.mp inside]
      exact Tallied.nil.balanced
  unfold requirePairs
  generalize unpaired? constructs = found at verdict
  cases verdict with
  | accepted ballot =>
      refine ⟨⟨fun _ => ballot, fun _ => rfl⟩, ?_⟩
      intro error rejected
      cases rejected
  | answered kind overdraws preceded =>
      refine ⟨⟨by simp, fun ballot => absurd ballot overdraws.not_ballot⟩, ?_⟩
      rintro error ⟨⟩
      exact ⟨_, _, _, _, overdraws, kind, rfl, .inl rfl, fun _ => preceded,
        fun _ => rfl⟩
  | unpaired kind overdraws alone =>
      refine ⟨⟨by simp, fun ballot => absurd ballot overdraws.not_ballot⟩, ?_⟩
      rintro error ⟨⟩
      exact ⟨_, _, _, _, overdraws, kind, rfl, .inr rfl,
        fun same => absurd same (message_elseUnpaired_ne _), fun preceded =>
          absurd preceded alone⟩

end Stencil.Construct
