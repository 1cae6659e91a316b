import Stencil.Proofs.Checked.Markers
import Stencil.Proofs.Contraction

namespace Stencil.Checked

open Text

/-! Construct trees built with every slice and every difference checked. -/

section Kinds

def attributeValue (source : Source) (attr : Attribute) :
    Reading TemplateError AttributeValue :=
  match attr.value with
  | none => return .empty
  | some value =>
      if value.text.isEmpty then return .empty
      else do
        let cut ← marked source value.span .tag
        return .ofMarked value.text cut

def argument (scope : Scope) (attr : Attribute) :
    Reading TemplateError Argument := do
  let value ← attributeValue scope.source attr
  return ⟨attr.name, value, attr.span⟩

def placeholder (scope : Scope) (element : Element) (target : String) :
    Reading TemplateError (Option Construct.Kind) := do
  let arguments ← (element.tag.attributes.filter fun attr =>
    !Directive.isReserved attr.name).mapM (argument scope)
  return some (.placeholder target arguments)

def kind? (scope : Scope) (element : Element) (isRoot : Bool) :
    Reading TemplateError (Option Construct.Kind) :=
  match Directive.of? element with
  | none =>
      match scope.target? element.name with
      | none => return none
      | some target => placeholder scope element target
  | some (.placeholder, attr) => do
      let name ← .settled (scope.word attr isIdentifier)
      match scope.target? name with
      | none => throw (scope.source.error attr.span (.unknownComponent name))
      | some target => placeholder scope element target
  | some _ => .settled (scope.kind? element isRoot)

theorem attributeValue_eq {source : Source} {attr : Attribute}
    (spelled : attr.Spelled source.chars) :
    attributeValue source attr =
      .settled (AttributeValue.read source attr) := by
  unfold attributeValue AttributeValue.read
  cases written : attr.value with
  | none => rfl
  | some value =>
      dsimp only
      split
      · rfl
      · have here : source.slice? value.span = some value.text.toList :=
          spelled value written
        have model : source.marked value.span .tag =
            source.cutMarkers value.span.start value.text.toList .tag := by
          rw [Source.marked, Source.slice_eq_ok.mpr here]
          rfl
        rw [marked_eq here, model]
        cases source.cutMarkers value.span.start value.text.toList .tag <;> rfl

theorem placeholder_eq {scope : Scope} {element : Element}
    (spelled : ∀ attr ∈ element.tag.attributes, attr.Spelled scope.source.chars)
    (target : String) :
    placeholder scope element target =
      .settled ((scope.placeholder element target).map some) := by
  have read : (element.tag.attributes.filter fun attr =>
        !Directive.isReserved attr.name).mapM
      (argument scope) = .settled (scope.arguments element) := by
    apply Reading.mapM_settled
    intro attr member
    rw [argument, attributeValue_eq
      (spelled attr (List.mem_of_mem_filter member)), Scope.argument]
    cases AttributeValue.read scope.source attr <;> rfl
  rw [placeholder, read, Scope.placeholder]
  cases scope.arguments element <;> rfl

theorem kind?_eq {scope : Scope} {element : Element}
    (spelled : ∀ attr ∈ element.tag.attributes, attr.Spelled scope.source.chars)
    (isRoot : Bool) :
    kind? scope element isRoot = .settled (scope.kind? element isRoot) := by
  unfold kind?
  split
  · rename_i plain
    rw [Scope.kind?, plain]
    dsimp only
    cases scope.target? element.name with
    | none => rfl
    | some target => exact placeholder_eq spelled target
  · rename_i attr carried
    rw [Scope.kind?, carried]
    apply Reading.bind_settled rfl
    intro name _
    cases scope.target? name with
    | none => rfl
    | some target => exact placeholder_eq spelled target
  · rfl

end Kinds

section Building

abbrev Builder := StateT Construct.Progress (Reading TemplateError)

def Builder.settled {α : Type} (step : Construct.Builder α) : Builder α :=
  fun progress => .settled (step progress)

def runsBetween (source : Source) (start stop : Nat) :
    List Construct → Reading TemplateError (List MarkedText)
  | [] => do
      let run ← marked source ⟨start, stop⟩ .text
      return [run]
  | construct :: rest => do
      let run ← marked source ⟨start, construct.span.start⟩ .text
      let runs ← runsBetween source construct.span.stop stop rest
      return run :: runs

def textBetween (source : Source) (start stop : Nat) :
    List Construct → Reading TemplateError (List Char)
  | [] => slice? source.chars start stop
  | construct :: rest => do
      let before ← slice? source.chars start construct.span.start
      let after ← textBetween source construct.span.stop stop rest
      return before ++ after

/-- The difference stays at zero where the text is shorter than the end tag. -/
def withoutEndTag (name : String) (chars : List Char) : Option (List Char) :=
  let closing := '<' :: '/' :: name.toList ++ ['>']
  let tail := byteLength chars - byteLength closing
  match slice? chars tail (byteLength chars) with
  | none => some chars
  | some last =>
      if last.map Char.toLower == closing.map Char.toLower then
        slice? chars 0 tail
      else some chars

def dropped (element : Element) (target : String) (inner : List Construct)
    (outside : List Char) :
    Option (List Event) := do
  let kept ← withoutEndTag element.name (trim outside)
  let constructs := (inner.filter fun construct => !construct.kind.isSlot).map
      fun construct => Event.ignoredConstruct target construct.kind.label
  match trim kept with
  | [] => return constructs
  | content =>
      return constructs ++ [.ignoredContent target (String.ofList content)]

def passSlots (source : Source) (element : Element) (target : String)
    (inner : List Construct) :
    Builder (List Construct) := do
  let slots := inner.filter fun construct => construct.kind.isSlot
  let outside ← textBetween source element.tagSpan.stop element.span.stop slots
  let events ← (liftM (dropped element target inner outside) :
    Reading TemplateError (List Event))
  .settled (Construct.Builder.tell events)
  return slots

def complete (source : Source) (element : Element) (kind : Construct.Kind)
    (id : Nat) (runs : List MarkedText) (children : List Construct) :
    Builder Construct := do
  (Reading.settled (Construct.requirePairs source children) :
    Reading TemplateError Unit)
  let html ← (liftM (slice? source.chars element.span.start element.span.stop) :
    Reading TemplateError (List Char))
  return ⟨kind, id, element.span, String.ofList html, runs, children⟩

def assemble (source : Source) (element : Element) (kind : Construct.Kind)
    (id : Nat) (inner : List Construct) : Builder Construct :=
  match kind with
  | .placeholder target _ => do
      let slots ← passSlots source element target inner
      complete source element kind id [] slots
  | _ => do
      let runs ← runsBetween source element.span.start element.span.stop inner
      complete source element kind id runs inner

mutual
def ofNode (scope : Scope) : Node → Builder (List Construct)
  | .element tag tagSpan span children => do
      let element : Element := ⟨tag, tagSpan, span, children⟩
      match ← kind? scope element false with
      | none => ofNodes scope children
      | some kind => do
          let id ← .settled Construct.Builder.freshId
          let inner ← ofNodes scope children
          let construct ← assemble scope.source element kind id inner
          return [construct]
  | .text _ | .comment _ | .doctype _ => pure []

def ofNodes (scope : Scope) : List Node → Builder (List Construct)
  | [] => pure []
  | node :: rest => do
      let first ← ofNode scope node
      let more ← ofNodes scope rest
      return first ++ more
end

def ofRoot (scope : Scope) (root : Element) : Builder Construct := do
  match ← kind? scope root true with
  | none => throw (scope.source.error root.tagSpan (.notConstruct root.name))
  | some kind => do
      let id ← .settled Construct.Builder.freshId
      let inner ← ofNodes scope root.children
      assemble scope.source root kind id inner

def build (source : Source) (root : Element) (known : List String) :
    Reading TemplateError (Construct × List Event) := do
  let (construct, progress) ←
    (ofRoot ⟨source, known, Construct.declaredName? root⟩ root).run ⟨0, []⟩
  return (construct, progress.events ++
    [.builtTree construct.kind.label construct.walk.length])

end Building

section Steps

variable {α β : Type} {progress : Construct.Progress}

theorem Builder.bind_settled {first : Builder α} {step : Construct.Builder α}
    {next : α → Builder β} {following : α → Construct.Builder β}
    (same : first progress = .settled (step progress))
    (later : ∀ value middle, step progress = .ok (value, middle) →
      next value middle = .settled (following value middle)) :
    (first >>= next) progress = .settled ((step >>= following) progress) :=
  Reading.bind_settled same fun (value, middle) ran => later value middle ran

theorem Builder.lift_settled {reading : Reading TemplateError α}
    {outcome : Except TemplateError α} (same : reading = .settled outcome) :
    (liftM reading : Builder α) progress =
      .settled ((liftM outcome : Construct.Builder α) progress) := by
  subst same
  cases outcome <;> rfl

end Steps

section Agreement

theorem byteLength_of_lower {left right : List Char}
    (same : left.map Char.toLower = right.map Char.toLower) :
    byteLength left = byteLength right := by
  have lowered : ∀ chars : List Char,
      byteLength (chars.map Char.toLower) = byteLength chars := by
    intro chars
    induction chars with
    | nil => rfl
    | cons char rest induction =>
        rw [List.map_cons, byteLength_cons, byteLength_cons, utf8Size_toLower,
          induction]
  rw [← lowered left, same, lowered right]

theorem withoutEndTag_eq (name : String) (chars : List Char) :
    withoutEndTag name chars = some (Construct.withoutEndTag name chars) := by
  unfold withoutEndTag Construct.withoutEndTag
  generalize '<' :: '/' :: name.toList ++ ['>'] = closing
  dsimp only
  generalize parted : chars.length - closing.length = count
  by_cases same : (chars.drop count).map Char.toLower ==
    closing.map Char.toLower
  · have size := byteLength_of_lower (eq_of_beq same)
    have whole : byteLength chars =
        byteLength (chars.take count) + byteLength closing := by
      rw [← size, ← byteLength_append, List.take_append_drop]
    have last : slice? chars (byteLength (chars.take count))
        (byteLength chars) = some (chars.drop count) :=
      slice?_eq_some.mpr ⟨chars.take count, [],
        by simp, rfl, by rw [whole, size]⟩
    have kept : slice? chars 0 (byteLength (chars.take count)) =
        some (chars.take count) :=
      slice?_eq_some.mpr ⟨[], chars.drop count,
        by simp, rfl, (Nat.zero_add _).symm⟩
    rw [whole, Nat.add_sub_cancel, ← whole, last]
    simp only [if_pos same, kept]
  · rw [if_neg same]
    split
    · rfl
    · rename_i last sliced
      apply if_neg
      intro equal
      obtain ⟨before, after, whole, start, size⟩ := slice?_eq_some.mp sliced
      have length : last.length = closing.length := by
        simpa using congrArg List.length (eq_of_beq equal)
      have final : after = [] := by
        have total := congrArg byteLength whole
        rw [byteLength_append, byteLength_append] at total
        exact byteLength_eq_zero.mp (by omega)
      rw [final, List.append_nil] at whole
      have dropped : chars.drop count = last := by
        rw [← parted, whole, List.length_append, length, Nat.add_sub_cancel,
          List.drop_left]
      rw [dropped] at same
      exact same equal

variable {source : Source} {start stop : Nat}

def Separated (source : Source) (start stop : Nat) : List Construct → Prop
  | [] => ∃ text, source.slice? ⟨start, stop⟩ = some text
  | construct :: rest =>
      (∃ text, source.slice? ⟨start, construct.span.start⟩ = some text) ∧
        Separated source construct.span.stop stop rest

theorem separated_of_apart {constructs : List Construct}
    (first : IsCut source.chars start) (last : IsCut source.chars stop)
    (ordered : start ≤ stop)
    (within : ∀ construct ∈ constructs,
      start ≤ construct.span.start ∧ construct.span.stop ≤ stop)
    (spelled : ∀ construct ∈ constructs, ∃ text,
      source.slice? construct.span = some text)
    (apart : constructs.Pairwise fun left right => left.span.stop ≤
      right.span.start) :
    Separated source start stop constructs := by
  induction apart generalizing start with
  | nil => exact first.exists_slice? last ordered
  | @cons construct rest ahead _ induction =>
      obtain ⟨text, here⟩ := spelled construct (List.mem_cons_self ..)
      obtain ⟨opens, closes⟩ := isCut_of_slice? here
      obtain ⟨after, before⟩ := within construct (List.mem_cons_self ..)
      refine ⟨first.exists_slice? opens after, induction closes before ?_ ?_⟩
      · intro other member
        exact ⟨ahead other member,
          (within other (List.mem_cons_of_mem _ member)).2⟩
      · exact fun other member => spelled other (List.mem_cons_of_mem _ member)

theorem runsBetween_eq {constructs : List Construct}
    (separated : Separated source start stop constructs) :
    runsBetween source start stop constructs =
      .settled (Construct.runsBetween source start stop constructs) := by
  induction constructs generalizing start with
  | nil =>
      obtain ⟨text, here⟩ := separated
      apply Reading.bind_settled (marked_eq here .text)
      intro run _
      rfl
  | cons construct rest induction =>
      obtain ⟨⟨text, here⟩, behind⟩ := separated
      apply Reading.bind_settled (marked_eq here .text)
      intro run _
      apply Reading.bind_settled (induction behind)
      intro runs _
      rfl

theorem slice_eq {span : Span} {text : List Char}
    (here : source.slice? span = some text) :
    (liftM (slice? source.chars span.start span.stop) :
      Reading TemplateError (List Char)) = .settled (source.slice span) := by
  rw [Source.slice_eq_ok.mpr here,
    show slice? source.chars span.start span.stop = some text from here,
    Reading.lift_eq]

theorem textBetween_eq {constructs : List Construct}
    (separated : Separated source start stop constructs) :
    textBetween source start stop constructs =
      .settled (Construct.textBetween source start stop constructs) := by
  induction constructs generalizing start with
  | nil =>
      obtain ⟨text, here⟩ := separated
      exact slice_eq here
  | cons construct rest induction =>
      obtain ⟨⟨text, here⟩, behind⟩ := separated
      apply Reading.bind_settled (slice_eq here)
      intro before _
      apply Reading.bind_settled (induction behind)
      intro after _
      rfl

theorem dropped_eq (element : Element) (target : String)
    (inner : List Construct) (outside : List Char) :
    dropped element target inner outside =
      some (Construct.dropped element target inner outside) := by
  simp only [dropped, withoutEndTag_eq, Option.bind_eq_bind, Option.bind_some,
    Construct.dropped]
  cases trim (Construct.withoutEndTag element.name (trim outside)) <;> rfl

theorem passSlots_eq {element : Element} {inner : List Construct}
    (separated : Separated source element.tagSpan.stop element.span.stop
      (inner.filter fun construct => construct.kind.isSlot))
    (target : String) (progress : Construct.Progress) :
    passSlots source element target inner progress =
      .settled (Construct.passSlots source element target inner progress) := by
  apply Builder.bind_settled (Builder.lift_settled (textBetween_eq separated))
  intro outside middle _
  rw [dropped_eq]
  rfl

theorem complete_eq {element : Element} {text : List Char}
    (here : source.slice? element.span = some text) (kind : Construct.Kind)
    (id : Nat) (runs : List MarkedText) (children : List Construct)
    (progress : Construct.Progress) :
    complete source element kind id runs children progress =
      .settled ((do
        Construct.requirePairs source children
        let html ← source.slice element.span
        return ⟨kind, id, element.span, String.ofList html, runs, children⟩ :
          Construct.Builder Construct) progress) := by
  apply Builder.bind_settled (Builder.lift_settled rfl)
  intro _ middle _
  apply Builder.bind_settled (Builder.lift_settled (slice_eq here))
  intro html middle _
  rfl

theorem assemble_eq {element : Element} {inner : List Construct}
    {text : List Char} (here : source.slice? element.span = some text)
    (around : Separated source element.span.start element.span.stop inner)
    (behind : Separated source element.tagSpan.stop element.span.stop
      (inner.filter fun construct => construct.kind.isSlot))
    (kind : Construct.Kind) (id : Nat) (progress : Construct.Progress) :
    assemble source element kind id inner progress =
      .settled (Construct.assemble source element kind id inner progress) := by
  cases kind with
  | placeholder target arguments =>
      apply Builder.bind_settled (passSlots_eq behind target progress)
      intro slots middle _
      exact complete_eq here _ id [] slots middle
  | component | loop | conditional | alternative | slot =>
      apply Builder.bind_settled (Builder.lift_settled (runsBetween_eq around))
      intro runs middle _
      exact complete_eq here _ id runs inner middle

section Placed

variable {scope : Scope} {element : Element} {tokens : List Token}

theorem isCut_tagSpan_stop (placed : element.Placed source tokens)
    {text : List Char} (here : source.slice? element.span = some text) :
    IsCut source.chars element.tagSpan.stop := by
  by_cases single : element.tag.isSingle
  · rw [← (placed.single single).1]
    exact (isCut_of_slice? here).2
  · obtain ⟨_, _, _, _, _, inside⟩ := placed.paired single
    exact (isCut_of_slice? inside).1

theorem assemble_of_builds
    (all : element.node.All (Node.Placed scope.source tokens))
    {inner : List Construct}
    (builds : List.Forall₂ (Construct.BuiltFrom scope) (scope.nearest element)
      inner)
    (kind : Construct.Kind) (id : Nat) (progress : Construct.Progress) :
    assemble scope.source element kind id inner progress =
      .settled (Construct.assemble scope.source element kind id inner
        progress) := by
  have placed := all.here.element element rfl
  obtain ⟨text, here⟩ : ∃ text, scope.source.slice? element.span = some text :=
    all.here.spelled
  obtain ⟨opens, closes⟩ := isCut_of_slice? here
  obtain ⟨last, closing, ends, within⟩ := scope.nearest_within all
  have before := ends.le
  have tagged := placed.tagged
  have start := placed.start
  have stop := placed.stop
  have inside : ∀ construct ∈ inner,
      element.tagSpan.stop ≤ construct.span.start ∧
      construct.span.stop ≤ element.span.stop ∧
      ∃ text, scope.source.slice? construct.span = some text := by
    intro construct member
    obtain ⟨below, nearest, made⟩ := builds.exists_of_mem_right member
    obtain ⟨after, _, upto⟩ := within below nearest
    rw [← made.span_eq] at after upto
    exact ⟨after, Nat.le_trans upto before, _, made.html⟩
  have apart : inner.Pairwise fun left right =>
      left.span.stop ≤ right.span.start := by
    have pairwise := scope.nearest_pairwise all
    rwa [← List.pairwise_map (f := Element.span)
      (R := fun left right => left.stop ≤ right.start),
      ← Construct.spans_of_builds builds, List.pairwise_map] at pairwise
  apply assemble_eq here
  · refine separated_of_apart opens closes (by omega) ?_
        (fun construct member => (inside construct member).2.2) apart
    intro construct member
    obtain ⟨after, upto, _⟩ := inside construct member
    omega
  · refine separated_of_apart (isCut_tagSpan_stop placed here) closes stop ?_ ?_
      (apart.filter _)
    · intro construct member
      obtain ⟨after, upto, _⟩ :=
        inside construct (List.mem_of_mem_filter member)
      exact ⟨after, upto⟩
    · exact fun construct member =>
        (inside construct (List.mem_of_mem_filter member)).2.2

mutual
theorem ofNode_eq (scanned : scope.source.tokens = .ok tokens) (node : Node)
    (all : node.All (Node.Placed scope.source tokens))
    (progress : Construct.Progress) :
    ofNode scope node progress =
      .settled (Construct.ofNode scope node progress) := by
  cases node with
  | element tag tagSpan span children =>
      let element : Element := ⟨tag, tagSpan, span, children⟩
      have here : element.node.All (Node.Placed scope.source tokens) := all
      have spelled := scope.source.tokens_spelled scanned
        (all.here.element element rfl).read
      rw [ofNode, Construct.ofNode]
      apply Builder.bind_settled (Builder.lift_settled (kind?_eq spelled false))
      intro kind middle _
      cases kind with
      | none => exact ofNodes_eq scanned children all.inside middle
      | some kind =>
          apply Builder.bind_settled rfl
          intro id middle _
          apply Builder.bind_settled
            (ofNodes_eq scanned children all.inside middle)
          intro inner later ran
          apply Builder.bind_settled
            (assemble_of_builds here (Construct.ofNodes_builds children ran)
              kind id later)
          intro construct _ _
          rfl
  | text | comment | doctype => rfl

theorem ofNodes_eq (scanned : scope.source.tokens = .ok tokens)
    (nodes : List Node)
    (all : ∀ node ∈ nodes, node.All (Node.Placed scope.source tokens))
    (progress : Construct.Progress) :
    ofNodes scope nodes progress =
      .settled (Construct.ofNodes scope nodes progress) := by
  cases nodes with
  | nil => rfl
  | cons node rest =>
      rw [ofNodes, Construct.ofNodes]
      apply Builder.bind_settled
        (ofNode_eq scanned node (all node (List.mem_cons_self ..)) progress)
      intro first middle _
      apply Builder.bind_settled (ofNodes_eq scanned rest
        (fun other member => all other (List.mem_cons_of_mem _ member)) middle)
      intro more _ _
      rfl
end

theorem ofRoot_eq (scanned : scope.source.tokens = .ok tokens)
    (all : element.node.All (Node.Placed scope.source tokens))
    (progress : Construct.Progress) :
    ofRoot scope element progress =
      .settled (Construct.ofRoot scope element progress) := by
  have spelled := scope.source.tokens_spelled scanned
    (all.here.element element rfl).read
  apply Builder.bind_settled (Builder.lift_settled (kind?_eq spelled true))
  intro kind middle _
  cases kind with
  | none => rfl
  | some kind =>
      apply Builder.bind_settled rfl
      intro id middle _
      apply Builder.bind_settled
        (ofNodes_eq scanned element.children all.inside middle)
      intro inner later ran
      exact assemble_of_builds all
        (Construct.ofNodes_builds element.children ran) kind id later

end Placed

theorem build_eq {document : Document} {root : Element}
    (parsed : Document.parse source = .ok document)
    (inDocument : root ∈ document.descendants.map Prod.snd)
    (known : List String) :
    build source root known = .settled (Construct.build source root known) := by
  obtain ⟨tokens, scanned, _, placed⟩ := Document.parse_places parsed
  obtain ⟨entry, walked, rfl⟩ := List.mem_map.mp inDocument
  have all := Element.all_of_walk placed walked
  let scope : Scope := ⟨source, known, Construct.declaredName? entry.2⟩
  have ran : (ofRoot scope entry.2).run ⟨0, []⟩ =
      .settled ((Construct.ofRoot scope entry.2).run ⟨0, []⟩) :=
        ofRoot_eq scanned all ⟨0, []⟩
  apply Reading.bind_settled ran
  intro result _
  rfl

end Agreement

end Stencil.Checked
