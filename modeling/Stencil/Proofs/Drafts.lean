import Stencil.Proofs.Covering

theorem List.exists_append_of_findIdx? {α : Type} {test : α → Bool}
    {items : List α} {index : Nat} (found : items.findIdx? test = some index) :
    ∃ before item after,
      items = before ++ item :: after ∧ before.length = index ∧ test item ∧
      ∀ earlier ∈ before, ¬ test earlier := by
  obtain ⟨bound, here, before⟩ := List.findIdx?_eq_some_iff_getElem.mp found
  refine ⟨items.take index, items[index], items.drop (index + 1), ?_, ?_, here,
    ?_⟩
  · rw [← List.drop_eq_getElem_cons, List.take_append_drop]
  · exact List.length_take_of_le (Nat.le_of_lt bound)
  · intro earlier member
    obtain ⟨place, low, rfl⟩ := List.mem_take_iff_getElem.mp member
    exact before place (Nat.lt_of_lt_of_le low (Nat.min_le_left ..))

theorem List.findIdx?_append_cons {α : Type} {test : α → Bool}
    {before after : List α} {item : α} (here : test item)
    (earlier : ∀ other ∈ before, ¬ test other) :
    (before ++ item :: after).findIdx? test = some before.length := by
  have none : before.findIdx? test = none := by simpa using earlier
  rw [List.findIdx?_append, none, Option.none_or, List.findIdx?_cons,
    if_pos here, Option.map_some, Nat.zero_add]

namespace Stencil

open Text

/-! What one token does to a draft, whatever its source. Open elements that end
together become one node, which is put into what is around them. -/

theorem not_void_of_begins {name written : String} (raw : isRawTextElement name)
    (begins : beginsWithIgnoringCase name.toList written.toList) :
    ¬ isVoidElement written := by
  intro isVoid
  obtain ⟨known, rawMember, rawSame⟩ := List.any_eq_true.mp raw
  obtain ⟨single, voidMember, voidSame⟩ := List.any_eq_true.mp isVoid
  obtain ⟨front, rest, split, same⟩ := beginsWithIgnoringCase_iff.mp begins
  have apart : ∀ raw ∈ rawTextElements, ∀ void ∈ voidElements,
      ¬ beginsWith (raw.toList.map Char.toLower)
        (void.toList.map Char.toLower) := by
    have checked : (rawTextElements.all fun raw => voidElements.all fun void =>
        !beginsWith (raw.toList.map Char.toLower)
            (void.toList.map Char.toLower)) = true := by
      decide +kernel
    simpa [List.all_eq_true] using checked
  apply apart known rawMember single voidMember
  rw [← eq_of_beq voidSame, ← eq_of_beq rawSame, split, List.map_append, same]
  exact List.isPrefixOf_iff_prefix.mpr (List.prefix_append ..)

theorem not_void_of_raw {name : String} (raw : isRawTextElement name) :
    ¬ isVoidElement name :=
  not_void_of_begins raw
    (beginsWithIgnoringCase_iff.mpr ⟨_, [], (List.append_nil _).symm, rfl⟩)

theorem Tag.not_raw_of_single {tag : Tag} (single : tag.isSingle) :
    ¬ tag.isRaw := by
  intro raw
  rw [Tag.isRaw, Bool.and_eq_true] at raw
  rw [Tag.isSingle, Bool.or_eq_true] at single
  rcases single with closed | isVoid
  · simp [closed] at raw
  · exact not_void_of_raw raw.1 isVoid

def Token.leaf? (token : Token) : Option Node :=
  match token.kind with
  | .startTag tag =>
      if tag.isSingle then
        some (.element tag token.span token.span []) else none
  | .text _ => some (.text token.span)
  | .comment _ => some (.comment token.span)
  | .doctype _ => some (.doctype token.span)
  | .endTag _ | .eof => none

namespace Document

namespace Opened

def holding (opened : Opened) : Option Node → Opened
  | none => opened
  | some node => { opened with children := opened.children ++ [node] }

def ended (opened : Opened) (stop : Nat) : Node :=
  .element opened.tag opened.tagSpan
    ⟨opened.tagSpan.start, max stop opened.tagSpan.stop⟩ opened.children

/-- The node that open elements become when all of them end at one place, the
innermost holding the given node. -/
def nest (stop : Nat) : Option Node → List Opened → Option Node
  | inside, [] => inside
  | inside, opened :: around =>
      nest stop (some ((opened.holding inside).ended stop)) around

theorem nest_append (stop : Nat) (inside : Option Node)
    (inner outer : List Opened) :
    nest stop inside (inner ++ outer) =
      nest stop (nest stop inside inner) outer := by
  induction inner generalizing inside with
  | nil => rfl
  | cons opened around induction => exact induction _

end Opened

namespace Draft

def place (draft : Draft) : Option Node → Draft
  | none => draft
  | some node => draft.add node

theorem place_cons (opened : Opened) (around : List Opened) (nodes : List Node)
    (inside : Option Node) :
    (⟨opened :: around, nodes⟩ : Draft).place inside =
      ⟨opened.holding inside :: around, nodes⟩ := by
  cases inside <;> rfl

theorem closeMany_place (stop : Nat) (inside : Option Node)
    (inner outer : List Opened) (nodes : List Node) :
    ((⟨inner ++ outer, nodes⟩ : Draft).place inside).closeMany stop
      inner.length =
      (⟨outer, nodes⟩ : Draft).place (Opened.nest stop inside inner) := by
  induction inner generalizing inside with
  | nil => rfl
  | cons opened around induction =>
      rw [List.cons_append, place_cons]
      exact induction (some ((opened.holding inside).ended stop))

theorem closeMany_append {draft : Draft} {inner outer : List Opened}
    (shape : draft.opened = inner ++ outer) (stop : Nat) :
    draft.closeMany stop inner.length =
      (⟨outer, draft.nodes⟩ : Draft).place (Opened.nest stop none inner) := by
  obtain ⟨opened, nodes⟩ := draft
  subst shape
  exact closeMany_place stop none inner outer nodes

def ended (draft : Draft) (stop : Nat) : Draft :=
  ⟨[], draft.nodes ++ (Opened.nest stop none draft.opened).toList⟩

theorem closeMany_all (draft : Draft) (stop : Nat) :
    draft.closeMany stop draft.opened.length = draft.ended stop := by
  rw [closeMany_append (List.append_nil _).symm, ended]
  cases Opened.nest stop none draft.opened with
  | none => rw [place, Option.toList_none, List.append_nil]
  | some node => rfl

/-- What a token makes of a draft. -/
inductive Takes (draft : Draft) : Token → Draft → Prop
  | leaf {token : Token} {node : Node} (made : token.leaf? = some node) :
      Takes draft token (draft.add node)
  | opens {tag : Tag} {span : Span} (paired : ¬ tag.isSingle) :
      Takes draft ⟨.startTag tag, span⟩
        ⟨⟨tag, span, []⟩ :: draft.opened, draft.nodes⟩
  | closes {name : String} {span : Span} {inner outer : List Opened}
      {top : Opened}
      (shape : draft.opened = inner ++ top :: outer)
      (same : sameIgnoringCase top.tag.name name)
      (others : ∀ opened ∈ inner, ¬ sameIgnoringCase opened.tag.name name) :
      Takes draft ⟨.endTag name, span⟩
        ((⟨outer, draft.nodes⟩ : Draft).add
          ((top.holding (Opened.nest span.start none inner)).ended span.stop))
  | passes {name : String} {span : Span} (isVoid : isVoidElement name)
      (unopened : ∀ opened ∈ draft.opened,
        ¬ sameIgnoringCase opened.tag.name name) :
      Takes draft ⟨.endTag name, span⟩ draft
  | ends {span : Span} : Takes draft ⟨.eof, span⟩ (draft.ended span.stop)

variable {source : Source} {draft next : Draft} {token : Token}
  {tokens : List Token}

theorem close_closeMany {inner outer : List Opened} {top : Opened}
    (shape : draft.opened = inner ++ top :: outer) (start stop : Nat) :
    (draft.closeMany start inner.length).close stop =
      (⟨outer, draft.nodes⟩ : Draft).add
        ((top.holding (Opened.nest start none inner)).ended stop) := by
  rw [closeMany_append shape, place_cons]
  rfl

theorem takes_of_step (stepped : step source draft token = .ok next) :
    draft.Takes token next := by
  obtain ⟨kind, span⟩ := token
  unfold step at stepped
  cases kind with
  | startTag tag =>
      dsimp only at stepped
      split at stepped
      · rename_i single
        obtain rfl := Except.ok.inj stepped
        exact .leaf (if_pos single)
      · rename_i paired
        obtain rfl := Except.ok.inj stepped
        exact .opens paired
  | endTag name =>
      dsimp only at stepped
      split at stepped
      · rename_i index found
        obtain rfl := Except.ok.inj stepped
        obtain ⟨inner, top, outer, shape, rfl, same, others⟩ :=
          List.exists_append_of_findIdx? found
        rw [close_closeMany shape]
        exact .closes shape same others
      · rename_i none
        split at stepped
        · rename_i isVoid
          obtain rfl := Except.ok.inj stepped
          exact .passes isVoid (by simpa using none)
        · cases stepped
  | text | comment | doctype =>
      obtain rfl := Except.ok.inj stepped
      exact .leaf rfl
  | eof =>
      obtain rfl := Except.ok.inj stepped
      rw [closeMany_all]
      exact .ends

theorem step_of_takes (takes : draft.Takes token next) (source : Source) :
    step source draft token = .ok next := by
  cases takes with
  | @leaf _ node made =>
      obtain ⟨kind, span⟩ := token
      unfold step
      cases kind with
      | startTag tag =>
          simp only [Token.leaf?] at made
          split at made
          · rename_i single
            obtain rfl := Option.some.inj made
            exact if_pos single
          · cases made
      | endTag | eof => cases made
      | text | comment | doctype =>
          obtain rfl := Option.some.inj made
          rfl
  | opens paired => exact if_neg paired
  | @closes name span inner outer top shape same others =>
      have found :
          (draft.opened.findIdx? fun opened => sameIgnoringCase opened.tag.name
            name) =
          some inner.length := by
        rw [shape]
        exact List.findIdx?_append_cons same others
      simp only [step, found]
      rw [close_closeMany shape]
  | @passes name span isVoid unopened =>
      have none :
          (draft.opened.findIdx? fun opened => sameIgnoringCase opened.tag.name
            name) =
          none := by
        simpa using unopened
      simp only [step, none]
      exact if_pos isVoid
  | ends =>
      simp only [step]
      rw [closeMany_all]

theorem step_eq_error {error : TemplateError} :
    step source draft token = .error error ↔
      ∃ name, token.kind = .endTag name ∧ ¬ isVoidElement name ∧
        (∀ opened ∈ draft.opened, ¬ sameIgnoringCase opened.tag.name name) ∧
        error = source.error token.span (.strayEndTag name) := by
  obtain ⟨kind, span⟩ := token
  unfold step
  cases kind with
  | startTag tag =>
      dsimp only
      split <;> simp
  | endTag name =>
      dsimp only
      cases found : draft.opened.findIdx? fun opened =>
        sameIgnoringCase opened.tag.name name with
      | some index =>
          obtain ⟨inner, top, outer, shape, _, same, _⟩ :=
            List.exists_append_of_findIdx? found
          simp only [reduceCtorEq, Token.Kind.endTag.injEq, exists_eq_left',
            false_iff]
          intro stray
          exact stray.2.1 top (by simp [shape]) same
      | none =>
          have unopened : ∀ opened ∈ draft.opened,
              ¬ sameIgnoringCase opened.tag.name name := by
            simpa using found
          by_cases isVoid : isVoidElement name
          · simp [isVoid]
          · dsimp only
            rw [if_neg isVoid]
            constructor
            · intro failed
              exact ⟨name, rfl, isVoid, unopened,
                (Except.error.inj failed).symm⟩
            · rintro ⟨other, same, _, _, rfl⟩
              obtain rfl := Token.Kind.endTag.inj same
              rfl
  | text | comment | doctype | eof => simp

inductive Runs : Draft → List Token → Draft → Prop
  | done (draft : Draft) : Runs draft [] draft
  | step {draft middle next : Draft} {token : Token} {rest : List Token}
      (here : draft.Takes token middle) (behind : Runs middle rest next) :
      Runs draft (token :: rest) next

theorem foldlM_eq_ok : tokens.foldlM (step source) draft = .ok next ↔
    draft.Runs tokens next := by
  constructor
  · intro run
    induction tokens generalizing draft with
    | nil =>
        obtain rfl := Except.pure_eq_ok.mp run
        exact .done draft
    | cons token rest induction =>
        rw [List.foldlM_cons] at run
        obtain ⟨middle, stepped, run⟩ := Except.bind_eq_ok.mp run
        exact .step (takes_of_step stepped) (induction run)
  · intro runs
    induction runs with
    | done => rfl
    | step here _ induction =>
        rw [List.foldlM_cons]
        exact Except.bind_eq_ok.mpr ⟨_, step_of_takes here source, induction⟩

theorem runs_append {before after : List Token} :
    draft.Runs (before ++ after) next ↔
      ∃ middle, draft.Runs before middle ∧ middle.Runs after next := by
  constructor
  · intro runs
    induction before generalizing draft with
    | nil => exact ⟨draft, .done draft, runs⟩
    | cons token rest induction =>
        cases runs with
        | step here behind =>
            obtain ⟨middle, first, second⟩ := induction behind
            exact ⟨middle, .step here first, second⟩
  · rintro ⟨middle, first, second⟩
    induction first with
    | done => exact second
    | step here _ induction => exact .step here (induction second)

theorem runs_singleton : draft.Runs [token] next ↔ draft.Takes token next := by
  constructor
  · intro runs
    cases runs with
    | step here behind =>
        cases behind
        exact here
  · exact fun takes => .step takes (.done next)

theorem Runs.concat {middle : Draft} (first : draft.Runs tokens middle)
    (last : middle.Takes token next) : draft.Runs (tokens ++ [token]) next :=
  runs_append.mpr ⟨middle, first, runs_singleton.mpr last⟩

theorem takes_eof {span : Span} :
    draft.Takes ⟨.eof, span⟩ next ↔ next = draft.ended span.stop := by
  constructor
  · intro takes
    cases takes with
    | leaf made => cases made
    | ends => rfl
  · rintro rfl
    exact .ends

end Draft

/-- A document is what the tokens up to the end of the text make of an empty
draft, with all that is left open ended there. -/
theorem parse_eq_ok {source : Source} {document : Document} :
    parse source = .ok document ↔
      ∃ body last draft, Token.Scans ⟨0, source.chars⟩ body last ∧
        last.rest = [] ∧
        Draft.empty.Runs body draft ∧
        document.nodes = (draft.ended last.offset).nodes := by
  unfold parse
  constructor
  · intro parsed
    obtain ⟨tokens, scanned, parsed⟩ := Except.bind_eq_ok.mp parsed
    obtain ⟨draft, run, parsed⟩ := Except.bind_eq_ok.mp parsed
    obtain rfl := Except.pure_eq_ok.mp parsed
    obtain ⟨body, last, scans, done, rfl⟩ :=
      Source.tokens_eq_ok.mp (Except.mapError_eq_ok.mp scanned)
    obtain ⟨open_, runs, ending⟩ :=
      Draft.runs_append.mp (Draft.foldlM_eq_ok.mp run)
    obtain rfl := Draft.takes_eof.mp (Draft.runs_singleton.mp ending)
    exact ⟨body, last, open_, scans, done, runs, rfl⟩
  · rintro ⟨body, last, draft, scans, done, runs, nodes⟩
    obtain ⟨_⟩ := document
    obtain rfl := nodes
    refine Except.bind_eq_ok.mpr ⟨_, Except.mapError_eq_ok.mpr
      (Source.tokens_eq_ok.mpr ⟨body, last, scans, done, rfl⟩), ?_⟩
    exact Except.bind_eq_ok.mpr
      ⟨_, Draft.foldlM_eq_ok.mpr (runs.concat (Draft.takes_eof.mpr rfl)), rfl⟩

end Document

end Stencil
