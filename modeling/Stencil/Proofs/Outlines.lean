import Stencil.Proofs.Drafts

namespace Stencil

open Text

/-! Nodes keep the order of their tokens. An element is put into its parent only
when it ends, but the outlines of a draft, with those of the open elements
around each other, never change their order. -/

/-- What a node takes over from its token. -/
inductive Outline where
  | element (tag : Tag) (tagSpan : Span)
  | text (span : Span)
  | comment (span : Span)
  | doctype (span : Span)
  deriving DecidableEq, Repr

def Token.outline? (token : Token) : Option Outline :=
  match token.kind with
  | .startTag tag => some (.element tag token.span)
  | .text _ => some (.text token.span)
  | .comment _ => some (.comment token.span)
  | .doctype _ => some (.doctype token.span)
  | .endTag _ | .eof => none

namespace Node

def outline : Node → Outline
  | .element tag tagSpan _ _ => .element tag tagSpan
  | .text span => .text span
  | .comment span => .comment span
  | .doctype span => .doctype span

def outlines (nodes : List Node) : List Outline :=
  (forestListing 0 nodes).map fun entry => entry.2.outline

mutual
theorem listing_depth (node : Node) (depth other : Nat) :
    (node.listing depth).map Prod.snd = (node.listing other).map Prod.snd := by
  cases node with
  | element tag tagSpan span children =>
      simp only [listing, List.map_cons,
        forestListing_depth children (depth + 1) (other + 1)]
  | text | comment | doctype => rfl

theorem forestListing_depth (nodes : List Node) (depth other : Nat) :
    (forestListing depth nodes).map Prod.snd =
      (forestListing other nodes).map Prod.snd := by
  cases nodes with
  | nil => rfl
  | cons node rest =>
      simp only [forestListing, List.map_append, listing_depth node depth other,
        forestListing_depth rest depth other]
end

@[simp] theorem outlines_nil : outlines [] = [] := rfl

theorem outlines_cons (node : Node) (rest : List Node) :
    outlines (node :: rest) =
      node.outline :: (outlines node.children ++ outlines rest) := by
  have below :
      ((forestListing 1 node.children).map fun entry => entry.2.outline) =
      outlines node.children := by
    have same :=
      congrArg (List.map outline) (forestListing_depth node.children 1 0)
    simpa [outlines, Function.comp_def] using same
  simp [outlines, forestListing, listing_eq, below]

theorem outlines_append (left right : List Node) :
    outlines (left ++ right) = outlines left ++ outlines right := by
  induction left with
  | nil => rfl
  | cons node rest induction => simp [outlines_cons, induction]

end Node

namespace Document

namespace Opened

def outlines : List Opened → List Outline
  | [] => []
  | opened :: around =>
      outlines around ++ .element opened.tag opened.tagSpan ::
        Node.outlines opened.children

theorem outlines_append (inner outer : List Opened) :
    outlines (inner ++ outer) = outlines outer ++ outlines inner := by
  induction inner with
  | nil => simp [outlines]
  | cons opened around induction => simp [outlines, induction]

theorem ended_outlines (opened : Opened) (inside : Option Node) (stop : Nat) :
    Node.outlines [(opened.holding inside).ended stop] =
      .element opened.tag opened.tagSpan ::
        (Node.outlines opened.children ++ Node.outlines inside.toList) := by
  cases inside with
  | none =>
      simp [Node.outlines_cons, holding, ended, Node.outline, Node.children]
  | some node =>
      simp [Node.outlines_cons, holding, ended, Node.outline, Node.children,
        Node.outlines_append]

theorem nest_outlines (stop : Nat) (inside : Option Node)
    (inner : List Opened) :
    Node.outlines (nest stop inside inner).toList =
      outlines inner ++ Node.outlines inside.toList := by
  induction inner generalizing inside with
  | nil => rfl
  | cons opened around induction =>
      rw [nest, induction, outlines, Option.toList_some, ended_outlines]
      simp

end Opened

namespace Draft

def outlines (draft : Draft) : List Outline :=
  Node.outlines draft.nodes ++ Opened.outlines draft.opened

theorem add_outlines (draft : Draft) (node : Node) :
    (draft.add node).outlines = draft.outlines ++ Node.outlines [node] := by
  obtain ⟨opened, nodes⟩ := draft
  cases opened with
  | nil => simp [add, outlines, Opened.outlines, Node.outlines_append]
  | cons top below =>
      simp [add, outlines, Opened.outlines, Node.outlines_append]

theorem ended_outlines (draft : Draft) (stop : Nat) :
    Node.outlines (draft.ended stop).nodes = draft.outlines := by
  rw [ended, Node.outlines_append, Opened.nest_outlines, outlines]
  simp

theorem leaf_outlines {token : Token} {node : Node}
    (made : token.leaf? = some node) :
    Node.outlines [node] = token.outline?.toList := by
  obtain ⟨kind, span⟩ := token
  cases kind with
  | startTag tag =>
      simp only [Token.leaf?] at made
      split at made
      · obtain rfl := Option.some.inj made
        rfl
      · cases made
  | endTag | eof => cases made
  | text | comment | doctype =>
      obtain rfl := Option.some.inj made
      rfl

variable {draft next : Draft} {token : Token} {tokens : List Token}

theorem Takes.outlines_eq (takes : draft.Takes token next) :
    next.outlines = draft.outlines ++ token.outline?.toList := by
  cases takes with
  | leaf made => rw [add_outlines, leaf_outlines made]
  | opens => simp [outlines, Opened.outlines, Token.outline?]
  | closes shape =>
      rw [add_outlines, Opened.ended_outlines, Opened.nest_outlines]
      simp [outlines, shape, Opened.outlines_append, Opened.outlines,
        Token.outline?]
  | passes => simp [Token.outline?]
  | ends =>
      rw [outlines, ended_outlines]
      simp [ended, Opened.outlines, Token.outline?]

theorem Runs.outlines_eq (runs : draft.Runs tokens next) :
    next.outlines = draft.outlines ++ tokens.filterMap Token.outline? := by
  induction runs with
  | done => simp
  | @step _ _ _ token rest here _ induction =>
      rw [induction, here.outlines_eq, List.append_assoc, List.filterMap_cons]
      cases token.outline? <;> rfl

end Draft

end Document

namespace Tag

/-- The start tags of the open elements behind a token, innermost first, given
those before it. An end tag ends the innermost open element of its name and all
inside that one. -/
def openBehind (opened : List Tag) (token : Token) : List Tag :=
  match token.kind with
  | .startTag tag => if tag.isSingle then opened else tag :: opened
  | .endTag name =>
      match opened.dropWhile fun tag => !sameIgnoringCase tag.name name with
      | [] => opened
      | _ :: around => around
  | .text _ | .comment _ | .doctype _ => opened
  | .eof => []

/-- No element of the name is open behind the tokens, and the name is not that
of a void element. -/
def StrayBehind (tokens : List Token) (name : String) : Prop :=
  ¬ isVoidElement name ∧ ∀ tag ∈ tokens.foldl openBehind [],
    ¬ sameIgnoringCase tag.name name

end Tag

namespace Document

namespace Draft

variable {source : Source} {draft next : Draft} {token : Token}
  {tokens : List Token}

theorem add_tags (draft : Draft) (node : Node) :
    (draft.add node).opened.map Opened.tag = draft.opened.map Opened.tag := by
  obtain ⟨opened, nodes⟩ := draft
  cases opened <;> rfl

theorem leaf_openBehind {node : Node} (made : token.leaf? = some node)
    (opened : List Tag) :
    Tag.openBehind opened token = opened := by
  obtain ⟨kind, span⟩ := token
  cases kind with
  | startTag tag =>
      simp only [Token.leaf?] at made
      split at made
      · rename_i single
        exact if_pos single
      · cases made
  | endTag | eof => cases made
  | text | comment | doctype => rfl

theorem Takes.tags_eq (takes : draft.Takes token next) :
    next.opened.map Opened.tag =
      Tag.openBehind (draft.opened.map Opened.tag) token := by
  cases takes with
  | leaf made => rw [add_tags, leaf_openBehind made]
  | opens paired => exact (if_neg paired).symm
  | @closes name _ inner outer top shape same others =>
      have passed : ∀ tag ∈ inner.map Opened.tag,
          (!sameIgnoringCase tag.name name) = true := by
        simpa using others
      rw [add_tags, Tag.openBehind, shape]
      dsimp only
      rw [List.map_append, List.dropWhile_append_of_pos passed, List.map_cons,
        List.dropWhile_cons_of_neg (by simpa using same)]
  | @passes name _ _ unopened =>
      have passed : ∀ tag ∈ draft.opened.map Opened.tag,
          (!sameIgnoringCase tag.name name) = true := by
        simpa using unopened
      rw [Tag.openBehind]
      dsimp only
      rw [List.dropWhile_eq_nil_iff.mpr passed]
  | ends => rfl

theorem Runs.tags_eq (runs : draft.Runs tokens next) :
    next.opened.map Opened.tag =
      tokens.foldl Tag.openBehind (draft.opened.map Opened.tag) := by
  induction runs with
  | done => rfl
  | step here _ induction => rw [List.foldl_cons, induction, here.tags_eq]

/-- A run is refused at a stray end tag. -/
theorem foldlM_error {error : TemplateError}
    (failed : tokens.foldlM (step source) empty = .error error) :
    ∃ before name span after, tokens = before ++ ⟨.endTag name, span⟩ :: after ∧
      Tag.StrayBehind before name ∧
      error = source.error span (.strayEndTag name) := by
  obtain ⟨before, ⟨kind, span⟩, after, draft, rfl, ran, refused⟩ :=
    Except.exists_of_foldlM_error failed
  obtain ⟨name, rfl, notVoid, unopened, same⟩ := step_eq_error.mp refused
  refine ⟨before, name, span, after, rfl, ⟨notVoid, ?_⟩, same⟩
  have tags := (foldlM_eq_ok.mp ran).tags_eq
  rw [← show draft.opened.map Opened.tag = before.foldl Tag.openBehind []
    from tags]
  simpa using unopened

theorem not_runs_of_stray {before after : List Token} {name : String}
    {span : Span} (stray : Tag.StrayBehind before name) :
    ¬ empty.Runs (before ++ ⟨.endTag name, span⟩ :: after) next := by
  intro runs
  obtain ⟨draft, first, second⟩ := runs_append.mp runs
  have tags : draft.opened.map Opened.tag = before.foldl Tag.openBehind [] :=
    first.tags_eq
  obtain ⟨notVoid, unopened⟩ := stray
  rw [← tags] at unopened
  cases second with
  | step here _ =>
      cases here with
      | leaf made => cases made
      | closes shape same _ => exact unopened _ (by simp [shape]) same
      | passes isVoid _ => exact notVoid isVoid

end Draft

theorem parse_of_tokens {source : Source} {tokens : List Token}
    (scanned : source.tokens = .ok tokens) :
    parse source =
      (tokens.foldlM (Draft.step source) Draft.empty).map fun draft =>
        ⟨draft.nodes⟩ := by
  rw [parse, scanned]
  rfl

theorem parse_listing {source : Source} {document : Document}
    (parsed : parse source = .ok document) :
    ∃ tokens, source.tokens = .ok tokens ∧
      document.listing.map (fun entry => entry.2.outline) =
        tokens.filterMap Token.outline? := by
  obtain ⟨body, last, draft, scans, done, runs, nodes⟩ := parse_eq_ok.mp parsed
  refine ⟨_, Source.tokens_eq_ok.mpr ⟨body, last, scans, done, rfl⟩, ?_⟩
  have whole := Draft.ended_outlines draft last.offset
  rw [← nodes, runs.outlines_eq] at whole
  rw [List.filterMap_append, show [_].filterMap Token.outline? = [] from rfl,
    List.append_nil]
  exact whole

/-- A document holds the tokens of its source one for one: all its nodes, each
before what is inside it, are the start tags, texts, comments and doctypes in
their order. The source is refused for a stray end tag exactly where it can be
cut into tokens and one of them is the end tag of an element that is neither
open there nor void. -/
theorem parse_outlines (source : Source) :
    (∀ document, parse source = .ok document →
      ∃ tokens, source.tokens = .ok tokens ∧
        document.listing.map (fun entry => entry.2.outline) =
          tokens.filterMap Token.outline?) ∧
    ((∃ error name, parse source = .error error ∧
      error.cause = .strayEndTag name) ↔
      ∃ tokens, source.tokens = .ok tokens ∧
        ∃ before name span after,
          tokens = before ++ ⟨.endTag name, span⟩ :: after ∧
          Tag.StrayBehind before name) := by
  constructor
  · exact fun document => parse_listing
  · constructor
    · rintro ⟨error, name, failed, cause⟩
      cases scanned : source.tokens with
      | error problem =>
          rw [parse, scanned] at failed
          cases failed
          cases cause
      | ok tokens =>
          rw [parse_of_tokens scanned, Except.map_eq_error] at failed
          obtain ⟨before, stray, span, after, shape, isStray, _⟩ :=
            Draft.foldlM_error failed
          exact ⟨tokens, rfl, before, stray, span, after, shape, isStray⟩
    · rintro ⟨tokens, scanned, before, name, span, after, rfl, stray⟩
      rw [parse_of_tokens scanned]
      cases run : (before ++ ⟨.endTag name, span⟩ :: after).foldlM
          (Draft.step source)
          Draft.empty with
      | ok draft =>
          exact absurd (Draft.foldlM_eq_ok.mp run)
            (Draft.not_runs_of_stray stray)
      | error error =>
          obtain ⟨_, first, _, _, _, _, rfl⟩ := Draft.foldlM_error run
          exact ⟨_, first, rfl, rfl⟩

/-- An item that the next end tag ends, an end tag that is passed over, and one
that comes too late. -/
theorem parse_outlines_list :
    (∃ document tokens,
      parse (Source.ofText "<ul><li>a<br>b</ul></BR><!--c-->") = .ok document ∧
      (Source.ofText "<ul><li>a<br>b</ul></BR><!--c-->").tokens = .ok tokens ∧
      document.listing.map (fun entry => entry.2.outline) =
        tokens.filterMap Token.outline? ∧
      tokens.filterMap Token.outline? =
        [.element ⟨"ul", [], false⟩ ⟨0, 4⟩, .element ⟨"li", [], false⟩ ⟨4, 8⟩,
          .text ⟨8, 9⟩,
          .element ⟨"br", [], false⟩ ⟨9, 13⟩, .text ⟨13, 14⟩,
          .comment ⟨24, 32⟩]) ∧
    ∃ error name, parse (Source.ofText "<ul><li></ul></LI>") = .error error ∧
      error.cause = .strayEndTag name := by
  constructor
  · have outlines :
        (parse (Source.ofText "<ul><li>a<br>b</ul></BR><!--c-->")).map
        (fun document => document.listing.map fun entry => entry.2.outline) =
          .ok [.element ⟨"ul", [], false⟩ ⟨0, 4⟩,
            .element ⟨"li", [], false⟩ ⟨4, 8⟩, .text ⟨8, 9⟩,
            .element ⟨"br", [], false⟩ ⟨9, 13⟩, .text ⟨13, 14⟩,
            .comment ⟨24, 32⟩] := by
      decide +kernel
    obtain ⟨document, parsed, listed⟩ := Except.map_eq_ok.mp outlines
    obtain ⟨tokens, scanned, same⟩ := (parse_outlines _).1 document parsed
    exact ⟨document, tokens, parsed, scanned, same, same ▸ listed⟩
  · have scanned : (Source.ofText "<ul><li></ul></LI>").tokens =
        .ok ([⟨.startTag ⟨"ul", [], false⟩, ⟨0, 4⟩⟩,
          ⟨.startTag ⟨"li", [], false⟩, ⟨4, 8⟩⟩,
          ⟨.endTag "ul", ⟨8, 13⟩⟩] ++ ⟨.endTag "LI", ⟨13, 18⟩⟩ ::
            [⟨.eof, ⟨18, 18⟩⟩]) := by
      decide +kernel
    have stray : Tag.StrayBehind [⟨.startTag ⟨"ul", [], false⟩, ⟨0, 4⟩⟩,
        ⟨.startTag ⟨"li", [], false⟩, ⟨4, 8⟩⟩, ⟨.endTag "ul", ⟨8, 13⟩⟩] "LI" :=
      ⟨by decide +kernel, by decide +kernel⟩
    exact (parse_outlines _).2.mpr ⟨_, scanned, _, _, _, _, rfl, stray⟩

end Document

end Stencil
