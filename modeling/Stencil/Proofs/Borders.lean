import Stencil.Proofs.Contraction

namespace Stencil

/-! Elements and constructs begin and end between tokens, and so do the gaps
that the children of a construct leave. No token lies across such a place. -/

def Token.Border (tokens : List Token) (offset : Nat) : Prop :=
  ∃ token ∈ tokens, offset = token.span.start ∨ offset = token.span.stop

theorem Token.Border.apart {source : Source} {tokens : List Token}
    {offset : Nat} (border : Token.Border tokens offset)
    (scanned : source.tokens = .ok tokens) :
    ∀ token ∈ tokens, offset ≤ token.span.start ∨ token.span.stop ≤ offset := by
  obtain ⟨forward, ordered⟩ := source.tokens_ordered scanned
  obtain ⟨here, read, side⟩ := border
  have span := forward here read
  intro token member
  rcases ordered.eq_or_rel read member with rfl | before | behind
  · omega
  · omega
  · omega

def Node.Bordered (tokens : List Token) (node : Node) : Prop :=
  Token.Border tokens node.span.start ∧ Token.Border tokens node.span.stop

namespace Document

section Drafts

variable (tokens : List Token)

structure Opened.Bordered (opened : Opened) : Prop where
  start : Token.Border tokens opened.tagSpan.start
  stop : Token.Border tokens opened.tagSpan.stop
  inside : ∀ child ∈ opened.children, child.All (Node.Bordered tokens)

structure Draft.Bordered (draft : Draft) : Prop where
  opened : ∀ opened ∈ draft.opened, opened.Bordered tokens
  nodes : ∀ node ∈ draft.nodes, node.All (Node.Bordered tokens)

end Drafts

namespace Draft

variable {source : Source} {tokens : List Token} {draft next : Draft}
  {stop : Nat}

theorem add_bordered {node : Node} (bordered : draft.Bordered tokens)
    (all : node.All (Node.Bordered tokens)) :
    (draft.add node).Bordered tokens := by
  have extended : ∀ {nodes : List Node},
      (∀ other ∈ nodes, other.All (Node.Bordered tokens)) →
      ∀ other ∈ nodes ++ [node], other.All (Node.Bordered tokens) := by
    intro nodes before other member
    rcases List.mem_append.mp member with earlier | last
    · exact before other earlier
    · rw [List.mem_singleton.mp last]
      exact all
  unfold add
  split
  · exact ⟨by simp, extended bordered.nodes⟩
  · rename_i top below shape
    have opened := bordered.opened
    rw [shape, List.forall_mem_cons] at opened
    obtain ⟨first, others⟩ := opened
    exact ⟨List.forall_mem_cons.mpr
      ⟨⟨first.start, first.stop, extended first.inside⟩, others⟩,
      bordered.nodes⟩

theorem close_bordered (bordered : draft.Bordered tokens)
    (border : Token.Border tokens stop) :
    (draft.close stop).Bordered tokens := by
  unfold close
  split
  · exact bordered
  · rename_i top below shape
    have opened := bordered.opened
    rw [shape, List.forall_mem_cons] at opened
    obtain ⟨first, others⟩ := opened
    refine add_bordered ⟨others, bordered.nodes⟩
      (.intro ⟨first.start, ?_⟩ first.inside)
    rcases Nat.le_total stop top.tagSpan.stop with before | behind
    · rw [Node.span, Nat.max_eq_right before]
      exact first.stop
    · rw [Node.span, Nat.max_eq_left behind]
      exact border

theorem closeMany_bordered (bordered : draft.Bordered tokens)
    (border : Token.Border tokens stop) (count : Nat) :
    (draft.closeMany stop count).Bordered tokens := by
  induction count generalizing draft with
  | zero => exact bordered
  | succ count induction => exact induction (close_bordered bordered border)

theorem step_bordered {token : Token} (read : token ∈ tokens)
    (bordered : draft.Bordered tokens)
    (stepped : step source draft token = .ok next) : next.Bordered tokens := by
  have start : Token.Border tokens token.span.start := ⟨token, read, .inl rfl⟩
  have stop : Token.Border tokens token.span.stop := ⟨token, read, .inr rfl⟩
  have leaf : ∀ node : Node, node.span = token.span → node.children = [] →
      (draft.add node).Bordered tokens := by
    intro node span childless
    refine add_bordered bordered (.intro ?_ ?_)
    · rw [Node.Bordered, span]
      exact ⟨start, stop⟩
    · simp [childless]
  unfold step at stepped
  split at stepped
  · split at stepped
    · obtain rfl := Except.ok.inj stepped
      exact leaf _ rfl rfl
    · obtain rfl := Except.ok.inj stepped
      exact ⟨List.forall_mem_cons.mpr ⟨⟨start, stop, by simp⟩, bordered.opened⟩,
        bordered.nodes⟩
  · split at stepped
    · obtain rfl := Except.ok.inj stepped
      exact close_bordered (closeMany_bordered bordered start _) stop
    · split at stepped
      · obtain rfl := Except.ok.inj stepped
        exact bordered
      · cases stepped
  · obtain rfl := Except.ok.inj stepped
    exact leaf _ rfl rfl
  · obtain rfl := Except.ok.inj stepped
    exact leaf _ rfl rfl
  · obtain rfl := Except.ok.inj stepped
    exact leaf _ rfl rfl
  · obtain rfl := Except.ok.inj stepped
    exact closeMany_bordered bordered stop _

theorem run_bordered {body : List Token} (read : ∀ token ∈ body, token ∈ tokens)
    (bordered : draft.Bordered tokens)
    (run : body.foldlM (step source) draft = .ok next) :
    next.Bordered tokens := by
  induction body generalizing draft with
  | nil =>
      cases run
      exact bordered
  | cons token rest induction =>
      rw [List.foldlM_cons] at run
      obtain ⟨between, stepped, run⟩ := Except.bind_eq_ok.mp run
      exact induction (fun other member => read other
        (List.mem_cons_of_mem _ member))
        (step_bordered (read token (List.mem_cons_self ..)) bordered stepped)
          run

end Draft

theorem parse_borders {source : Source} {document : Document}
    {tokens : List Token} (parsed : parse source = .ok document)
    (scanned : source.tokens = .ok tokens) :
    ∀ node ∈ document.nodes, node.All (Node.Bordered tokens) := by
  unfold parse at parsed
  obtain ⟨found, read, parsed⟩ := Except.bind_eq_ok.mp parsed
  rw [Except.mapError_eq_ok, scanned] at read
  obtain rfl := Except.ok.inj read
  obtain ⟨draft, run, parsed⟩ := Except.bind_eq_ok.mp parsed
  obtain rfl := Except.pure_eq_ok.mp parsed
  have start : Draft.empty.Bordered tokens :=
    ⟨by simp [Draft.empty], by simp [Draft.empty]⟩
  exact (Draft.run_bordered (fun _ member => member) start run).nodes

end Document

namespace Construct

section Gaps

variable {start stop : Nat} {children : List Construct}

theorem gaps_ends {holds : Nat → Prop} (first : holds start) (last : holds stop)
    (around : ∀ child ∈ children,
      holds child.span.start ∧ holds child.span.stop) :
    ∀ gap ∈ gaps start stop children, holds gap.start ∧ holds gap.stop := by
  induction children generalizing start with
  | nil =>
      intro gap member
      rw [List.mem_singleton.mp member]
      exact ⟨first, last⟩
  | cons child rest induction =>
      rw [List.forall_mem_cons] at around
      rintro gap (_ | ⟨_, member⟩)
      · exact ⟨first, around.1.1⟩
      · exact induction around.1.2 around.2 gap member

theorem gaps_apart
    (within : ∀ child ∈ children, start ≤ child.span.start ∧
      child.span.start < child.span.stop ∧ child.span.stop ≤ stop)
    (apart : children.Pairwise fun left right => left.span.stop ≤
      right.span.start) :
    ∀ gap ∈ gaps start stop children, start ≤ gap.start ∧ gap.stop ≤ stop ∧
      ∀ child ∈ children, child.span.stop ≤ gap.start ∨
        gap.stop ≤ child.span.start := by
  induction children generalizing start with
  | nil =>
      intro gap member
      rw [List.mem_singleton.mp member]
      exact ⟨Nat.le_refl _, Nat.le_refl _, by simp⟩
  | cons child rest induction =>
      obtain ⟨behind, ordered⟩ := List.pairwise_cons.mp apart
      obtain ⟨⟨after, wide, before⟩, others⟩ := List.forall_mem_cons.mp within
      rintro gap (_ | ⟨_, member⟩)
      · refine ⟨Nat.le_refl _, by dsimp only; omega, ?_⟩
        rintro other (_ | ⟨_, listed⟩)
        · exact .inr (Nat.le_refl _)
        · have := behind other listed
          exact .inr (by dsimp only; omega)
      · obtain ⟨later, inside, aside⟩ := induction
          (fun other listed => ⟨behind other listed, (others other listed).2⟩)
            ordered gap member
        refine ⟨by omega, inside, ?_⟩
        rintro other (_ | ⟨_, listed⟩)
        · exact .inl later
        · exact aside other listed

end Gaps

variable {source : Source} {document : Document} {root : Element}
  {known : List String} {tree : Construct} {events : List Event}
  {tokens : List Token}

theorem walk_borders (parsed : Document.parse source = .ok document)
    (scanned : source.tokens = .ok tokens)
    (inDocument : root ∈ document.descendants.map Prod.snd)
    (built : build source root known = .ok (tree, events)) :
    ∀ construct ∈ tree.walk, Token.Border tokens construct.span.start ∧
      Token.Border tokens construct.span.stop := by
  intro construct walked
  obtain ⟨element, below, made⟩ := (build_ok built).walk construct walked
  have inWalk : element ∈ document.descendants.map Prod.snd := by
    rcases List.mem_cons.mp below with rfl | inside
    · exact inDocument
    · exact Element.mem_walk_of_descendant inDocument inside
  obtain ⟨entry, listed, rfl⟩ := List.mem_map.mp inWalk
  rw [made.span_eq]
  exact (Element.all_of_walk (Document.parse_borders parsed scanned)
    listed).here

end Construct

end Stencil
