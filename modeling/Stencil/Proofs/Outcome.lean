import Mathlib.Data.List.Forall2

/-! What follows from the success of steps that are chained, and from the order
of a list. -/

theorem List.Pairwise.eq_or_rel {α : Type} {R : α → α → Prop} {items : List α}
    (pairwise : items.Pairwise R) {first second : α}
    (firstMember : first ∈ items) (secondMember : second ∈ items) :
    first = second ∨ R first second ∨ R second first := by
  induction pairwise with
  | nil => cases firstMember
  | cons ahead _ induction =>
      rcases List.mem_cons.mp firstMember with rfl | firstTail
      · rcases List.mem_cons.mp secondMember with rfl | secondTail
        · exact .inl rfl
        · exact .inr (.inl (ahead second secondTail))
      · rcases List.mem_cons.mp secondMember with rfl | secondTail
        · exact .inr (.inr (ahead first firstTail))
        · exact induction firstTail secondTail

theorem List.Forall₂.exists_of_mem_right {α β : Type} {R : α → β → Prop}
    {items : List α} {results : List β} (related : List.Forall₂ R items results)
    {result : β} (member : result ∈ results) :
    ∃ item ∈ items, R item result := by
  induction related with
  | nil => cases member
  | cons first _ induction =>
      rcases List.mem_cons.mp member with rfl | later
      · exact ⟨_, List.mem_cons_self .., first⟩
      · obtain ⟨item, inside, found⟩ := induction later
        exact ⟨item, List.mem_cons_of_mem _ inside, found⟩

theorem List.Forall₂.exists_of_mem_left {α β : Type} {R : α → β → Prop}
    {items : List α} {results : List β} (related : List.Forall₂ R items results)
    {item : α} (member : item ∈ items) :
    ∃ result ∈ results, R item result := by
  have flipped : List.Forall₂ (fun result item => R item result) results
    items := related.flip
  exact flipped.exists_of_mem_right member

theorem List.Forall₂.filter_eq_singleton {α β κ : Type} {R : α → β → Prop}
    {items : List α} {results : List β} (related : List.Forall₂ R items results)
    {key : β → κ} (apart : (results.map key).Nodup) {test : α → Bool}
    {wanted : κ}
    (tests : ∀ item result,
      R item result → (test item = true ↔ key result = wanted))
    {item : α} (member : item ∈ items) (passes : test item = true) :
    items.filter test = [item] := by
  induction related with
  | nil => cases member
  | @cons first partner rest partners here behind induction =>
      rw [List.map_cons, List.nodup_cons] at apart
      obtain ⟨alone, apart⟩ := apart
      rcases List.mem_cons.mp member with rfl | later
      · have none : rest.filter test = [] := by
          rw [List.filter_eq_nil_iff]
          intro other inside passed
          obtain ⟨result, listed, found⟩ := behind.exists_of_mem_left inside
          apply alone
          rw [(tests _ _ here).mp passes, ← (tests _ _ found).mp passed]
          exact List.mem_map_of_mem listed
        rw [List.filter_cons_of_pos passes, none]
      · have fails : ¬ test first = true := by
          intro passed
          obtain ⟨result, listed, found⟩ := behind.exists_of_mem_left later
          apply alone
          rw [(tests _ _ here).mp passed, ← (tests _ _ found).mp passes]
          exact List.mem_map_of_mem listed
        rw [List.filter_cons_of_neg fails]
        exact induction apart later

theorem List.Forall₂.map_eq {α β γ : Type} {R : α → β → Prop} {items : List α}
    {results : List β} {f : α → γ} {g : β → γ}
    (related : List.Forall₂ R items results)
    (same : ∀ item result, R item result → f item = g result) :
    results.map g = items.map f := by
  induction related with
  | nil => rfl
  | cons here _ induction =>
      rw [List.map_cons, List.map_cons, same _ _ here, induction]

theorem List.Forall₂.exists_append {α β : Type} {R : α → β → Prop}
    {left right : List α} {results : List β}
    (related : List.Forall₂ R (left ++ right) results) :
    ∃ first second, results = first ++ second ∧ List.Forall₂ R left first ∧
      List.Forall₂ R right second := by
  induction left generalizing results with
  | nil => exact ⟨[], results, rfl, .nil, related⟩
  | cons item rest induction =>
      cases related with
      | cons here behind =>
          obtain ⟨first, second, rfl, before, after⟩ := induction behind
          exact ⟨_ :: first, second, rfl, .cons here before, after⟩

theorem List.Perm.find?_eq {α : Type} {items others : List α}
    (perm : items.Perm others) {test : α → Bool}
    (single : ∀ first ∈ items, ∀ second ∈ items,
      test first → test second → first = second) :
    items.find? test = others.find? test := by
  cases found : others.find? test with
  | none =>
      rw [List.find?_eq_none] at found ⊢
      exact fun item member => found item (perm.mem_iff.mp member)
  | some hit =>
      have listed := perm.mem_iff.mpr (List.mem_of_find?_eq_some found)
      have hits := List.find?_some found
      obtain ⟨first, here⟩ :=
        Option.isSome_iff_exists.mp (List.find?_isSome.mpr ⟨hit, listed, hits⟩)
      rw [here, single first (List.mem_of_find?_eq_some here) hit listed
        (List.find?_some here) hits]

namespace Except

variable {ε ε' α β : Type}

theorem bind_eq_ok {first : Except ε α} {next : α → Except ε β} {result : β} :
    first >>= next = .ok result ↔ ∃ value,
    first = .ok value ∧ next value = .ok result := by
  cases first with
  | error problem => simp [bind, Except.bind]
  | ok value => simp [bind, Except.bind]

theorem map_eq_ok {first : Except ε α} {f : α → β} {result : β} :
    first.map f = .ok result ↔ ∃ value,
    first = .ok value ∧ f value = result := by
  cases first with
  | error problem => simp [Except.map]
  | ok value => simp [Except.map]

theorem bind_eq_error {first : Except ε α} {next : α → Except ε β}
    {problem : ε} :
    first >>= next = .error problem ↔
      first = .error problem ∨ ∃ value,
      first = .ok value ∧ next value = .error problem := by
  cases first with
  | error other => simp [bind, Except.bind]
  | ok value => simp [bind, Except.bind]

theorem map_eq_error {first : Except ε α} {f : α → β} {problem : ε} :
    first.map f = .error problem ↔ first = .error problem := by
  cases first with
  | error other => simp [Except.map]
  | ok value => simp [Except.map]

@[simp] theorem mapError_ok (value : α) (f : ε → ε') :
    (ok value : Except ε α).mapError f = ok value := rfl

theorem mapError_eq_ok {first : Except ε α} {f : ε → ε'} {result : α} :
    first.mapError f = .ok result ↔ first = .ok result := by
  cases first with
  | error problem => exact ⟨nofun, nofun⟩
  | ok value => simp

@[simp] theorem pure_eq_ok {value result : α} :
    (pure value : Except ε α) = .ok result ↔ value = result := by
  simp [pure, Except.pure]

theorem forall₂_of_mapM {f : α → Except ε β} {items : List α} {results : List β}
    (mapped : items.mapM f = .ok results) :
    List.Forall₂ (fun item result => f item = .ok result) items results := by
  induction items generalizing results with
  | nil =>
      rw [List.mapM_nil, pure_eq_ok] at mapped
      subst mapped
      exact .nil
  | cons item rest induction =>
      rw [List.mapM_cons] at mapped
      obtain ⟨first, first_eq, mapped⟩ := bind_eq_ok.mp mapped
      obtain ⟨more, more_eq, mapped⟩ := bind_eq_ok.mp mapped
      rw [pure_eq_ok] at mapped
      subst mapped
      exact .cons first_eq (induction more_eq)

theorem mapM_congr {f g : α → Except ε β} {items : List α}
    (same : ∀ item ∈ items, f item = g item) : items.mapM f = items.mapM g := by
  induction items with
  | nil => rfl
  | cons item rest induction =>
      rw [List.mapM_cons, List.mapM_cons, same item (List.mem_cons_self ..),
        induction fun other member =>
          same other (List.mem_cons_of_mem _ member)]

theorem mapM_eq_map {f : α → Except ε β} {value : α → β} {items : List α}
    (each : ∀ item ∈ items, f item = .ok (value item)) :
    items.mapM f = .ok (items.map value) := by
  induction items with
  | nil => rfl
  | cons item rest induction =>
      rw [List.mapM_cons, each item (List.mem_cons_self ..),
        induction fun other member =>
          each other (List.mem_cons_of_mem _ member)]
      rfl

theorem exists_value_of_mapM [Inhabited β] {f : α → Except ε β} {items : List α}
    {results : List β} (mapped : items.mapM f = .ok results) :
    ∃ value : α → β, results = items.map value ∧ ∀ item ∈ items,
      f item = .ok (value item) := by
  have each : ∀ item ∈ items,
      f item = .ok ((f item).toOption.getD default) := by
    intro item member
    obtain ⟨result, _, found⟩ :=
      (forall₂_of_mapM mapped).exists_of_mem_left member
    rw [found]
    rfl
  exact ⟨_, Except.ok.inj (mapped.symm.trans (mapM_eq_map each)), each⟩

theorem foldlM_congr {step other : β → α → Except ε β} {items : List α}
    {start : β}
    (same : ∀ item ∈ items, ∀ state, step state item = other state item) :
    items.foldlM step start = items.foldlM other start := by
  induction items generalizing start with
  | nil => rfl
  | cons item rest induction =>
      rw [List.foldlM_cons, List.foldlM_cons, same item (List.mem_cons_self ..)]
      congr 1
      funext state
      exact induction fun item member =>
        same item (List.mem_cons_of_mem _ member)

theorem exists_of_foldlM_error {step : β → α → Except ε β} {items : List α}
    {start : β} {problem : ε}
    (failed : items.foldlM step start = .error problem) :
    ∃ before item after state, items = before ++ item :: after ∧
      before.foldlM step start = .ok state ∧
      step state item = .error problem := by
  induction items generalizing start with
  | nil => cases failed
  | cons item rest induction =>
      rw [List.foldlM_cons] at failed
      rcases bind_eq_error.mp failed with here | ⟨next, stepped, later⟩
      · exact ⟨[], item, rest, start, rfl, rfl, here⟩
      · obtain ⟨before, other, after, state, rfl, ran, failed⟩ :=
          induction later
        refine ⟨item :: before, other, after, state, rfl, ?_, failed⟩
        rw [List.foldlM_cons, stepped]
        exact ran

theorem exists_of_mapM_error {f : α → Except ε β} {items : List α} {problem : ε}
    (failed : items.mapM f = .error problem) :
    ∃ before item after, items = before ++ item :: after ∧
      (∀ earlier ∈ before, ∃ result, f earlier = .ok result) ∧
      f item = .error problem := by
  induction items with
  | nil => cases failed
  | cons item rest induction =>
      rw [List.mapM_cons] at failed
      rcases bind_eq_error.mp failed with here | ⟨result, mapped, later⟩
      · exact ⟨[], item, rest, rfl, nofun, here⟩
      · rcases bind_eq_error.mp later with later | ⟨_, _, ⟨⟩⟩
        obtain ⟨before, other, after, rfl, earlier, failed⟩ := induction later
        refine ⟨item :: before, other, after, rfl, ?_, failed⟩
        rintro earliest (_ | ⟨_, member⟩)
        · exact ⟨result, mapped⟩
        · exact earlier earliest member

end Except
