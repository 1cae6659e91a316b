import Stencil.Proofs.Numbering

namespace Stencil

open Text

/-! The lines of a declaration, read back as the statements of its body. -/

/-- What a line of a body does: it declares a builder or a closure, writes an
expression to a builder, or returns one. -/
inductive Statement where
  | builder (name : String)
  | closure (name : String)
  | write (builder expression : String)
  | result (expression : String)
  deriving DecidableEq, Repr

namespace Statement

def ofChars? (chars : List Char) : Option Statement :=
  let word := String.ofList (chars.takeWhile isIdentifierPart)
  let behind := chars.dropWhile isIdentifierPart
  if word = "var" then
    some (.builder (String.ofList ((behind.drop 1).takeWhile isIdentifierPart)))
  else if word = "return" then some (.result (String.ofList (behind.drop 1)))
  else if beginsWith " := func(".toList behind then some (.closure word)
  else if beginsWith ".WriteString(".toList behind then
    some (.write word (String.ofList (behind.drop 13).dropLast))
  else none

/-- The statement of a line that is one tab in. What is further in belongs to a
closure. -/
def ofLine? (line : String) : Option Statement :=
  match line.toList with
  | '\t' :: chars => ofChars? chars
  | _ => none

section Reading

variable {word rest : List Char} {separator : Char}

theorem takeWhile_word (spelled : word.all isIdentifierPart)
    (ends : !isIdentifierPart separator) :
    (word ++ separator :: rest).takeWhile isIdentifierPart = word := by
  rw [List.takeWhile_append_of_pos (by simpa using spelled),
    List.takeWhile_cons_of_neg (by simpa using ends), List.append_nil]

theorem dropWhile_word (spelled : word.all isIdentifierPart)
    (ends : !isIdentifierPart separator) :
    (word ++ separator :: rest).dropWhile isIdentifierPart =
      separator :: rest := by
  rw [List.dropWhile_append_of_pos (by simpa using spelled),
    List.dropWhile_cons_of_neg (by simpa using ends)]

theorem ofLine?_word {line : String}
    (chars : line.toList = '\t' :: (word ++ separator :: rest))
    (spelled : word.all isIdentifierPart) (ends : !isIdentifierPart separator) :
    ofLine? line =
      if String.ofList word = "var" then
        some (.builder (String.ofList (rest.takeWhile isIdentifierPart)))
      else if String.ofList word = "return" then
        some (.result (String.ofList rest))
      else if beginsWith " := func(".toList (separator :: rest) then
        some (.closure (String.ofList word))
      else if beginsWith ".WriteString(".toList (separator :: rest) then
        some (.write (String.ofList word)
          (String.ofList (rest.drop 12).dropLast))
      else none := by
  unfold ofLine?
  rw [chars]
  simp only [ofChars?]
  rw [takeWhile_word spelled ends, dropWhile_word spelled ends]
  rfl

end Reading

variable {name : String}

theorem ofLine?_builder (spelled : name.toList.all isIdentifierPart) :
    ofLine? ("\tvar " ++ name ++ " strings.Builder") =
      some (.builder name) := by
  have chars : ("\tvar " ++ name ++ " strings.Builder").toList =
      '\t' :: ("var".toList ++ ' ' ::
        (name.toList ++ ' ' :: "strings.Builder".toList)) := by
    simp
  rw [ofLine?_word chars (by decide) (by decide), if_pos (by simp),
    takeWhile_word spelled (by decide), String.ofList_toList]

theorem ofLine?_result (expression : String) :
    ofLine? ("\treturn " ++ expression) = some (.result expression) := by
  have chars : ("\treturn " ++ expression).toList =
      '\t' :: ("return".toList ++ ' ' :: expression.toList) := by
    simp
  rw [ofLine?_word chars (by decide) (by decide), if_neg (by decide),
    if_pos (by simp), String.ofList_toList]

theorem ofLine?_closure (spelled : name.toList.all isIdentifierPart)
    (other : name ≠ "var") (another : name ≠ "return") (rest : String) :
    ofLine? ("\t" ++ (name ++ " := func(" ++ rest)) = some (.closure name) := by
  have chars : ("\t" ++ (name ++ " := func(" ++ rest)).toList =
      '\t' :: (name.toList ++ ' ' :: (":= func(".toList ++ rest.toList)) := by
    simp
  have begins : beginsWith " := func(".toList
      (' ' :: (":= func(".toList ++ rest.toList)) := by
    simp [beginsWith]
  rw [ofLine?_word chars spelled (by decide), String.ofList_toList,
    if_neg other, if_neg another, if_pos begins]

theorem ofLine?_write (spelled : name.toList.all isIdentifierPart)
    (other : name ≠ "var") (another : name ≠ "return") (expression : String) :
    ofLine? ("\t" ++ name ++ ".WriteString(" ++ expression ++ ")") =
      some (.write name expression) := by
  have chars : ("\t" ++ name ++ ".WriteString(" ++ expression ++ ")").toList =
      '\t' :: (name.toList ++ '.' ::
        ("WriteString(".toList ++ (expression.toList ++ [')']))) := by
    simp
  have fails : ¬ beginsWith " := func(".toList
      ('.' :: ("WriteString(".toList ++ (expression.toList ++ [')']))) := by
    simp [beginsWith]
  have begins : beginsWith ".WriteString(".toList
      ('.' :: ("WriteString(".toList ++ (expression.toList ++ [')']))) := by
    simp [beginsWith]
  rw [ofLine?_word chars spelled (by decide), String.ofList_toList,
    if_neg other, if_neg another, if_neg fails, if_pos begins]
  simp

def Inset (line : String) : Prop :=
  line.toList.head?.all fun char => char == '\t'

theorem inset_tab (line : String) : Inset ("\t" ++ line) := by
  simp [Inset]

theorem inset_indentLine (line : String) : Inset (Emit.indentLine line) := by
  unfold Emit.indentLine
  split
  · rename_i empty
    simp [Inset, String.isEmpty_iff.mp empty]
  · exact inset_tab line

theorem ofLine?_indentLine {line : String} (inset : Inset line) :
    ofLine? (Emit.indentLine line) = none := by
  unfold Emit.indentLine
  split
  · rename_i empty
    rw [String.isEmpty_iff.mp empty]
    rfl
  · rename_i something
    obtain ⟨char, rest, spelled⟩ :=
      List.exists_cons_of_ne_nil (l := line.toList) (by simpa using something)
    obtain rfl : char = '\t' := by simpa [Inset, spelled] using inset
    have chars : ("\t" ++ line).toList = '\t' :: ([] ++ '\t' :: rest) := by
      simp [spelled]
    rw [ofLine?_word chars rfl (by decide)]
    simp [beginsWith]

theorem ofLine?_unindented {line : String} {word rest : List Char}
    (chars : line.toList = word ++ ' ' :: rest)
    (spelled : word.all isIdentifierPart) :
    ofLine? line = none := by
  unfold ofLine?
  rw [chars]
  cases word with
  | nil => rfl
  | cons char more =>
      split
      · rename_i same
        obtain ⟨rfl, _⟩ := List.cons.inj same
        exact absurd spelled (by simp [isIdentifierPart])
      · rfl

theorem filterMap_indentLines {lines : List String}
    (inset : ∀ line ∈ lines, Inset line) :
    (Emit.indentLines lines).filterMap ofLine? = [] := by
  rw [Emit.indentLines, List.filterMap_map, List.filterMap_eq_nil_iff]
  exact fun line member => ofLine?_indentLine (inset line member)

end Statement

namespace Declaration

open Statement

variable {signatures : Signatures} {construct : Construct} {part : Declaration}

def statements (part : Declaration) : List Statement :=
  part.lines.filterMap ofLine?

theorem isIdentifierPart_of_isDigit {char : Char} (digit : char.isDigit) :
    isIdentifierPart char := by
  simp [isIdentifierPart, Char.isAlphanum, digit]

theorem spelled_nameOf {kind : Construct.Kind}
    (plain : ∀ name, kind ≠ .component name) (number : Nat) :
    (nameOf kind number).toList.all isIdentifierPart := by
  have label : kind.label.toList.all isIdentifierPart := by
    cases kind <;> (simp only [Construct.Kind.label]; decide)
  rw [nameOf_plain plain, String.toList_append, List.all_append, label,
    Bool.true_and, List.all_eq_true]
  exact fun char member =>
    isIdentifierPart_of_isDigit (isDigit_of_toString number char member)

theorem spelled_builderOf (kind : Construct.Kind) (number : Nat) :
    (builderOf kind number).toList.all isIdentifierPart := by
  by_cases plain : ∀ name, kind ≠ .component name
  · rw [builderOf_plain plain, String.toList_append, List.all_append,
      spelled_nameOf plain]
    decide
  · obtain ⟨name, rfl⟩ := not_forall_not.mp plain
    rw [builderOf]
    decide

theorem nameOf_ne {kind : Construct.Kind}
    (plain : ∀ name, kind ≠ .component name) (number : Nat) {word : String}
    (other : word.toList.all fun char => !char.isDigit) :
    nameOf kind number ≠ word :=
  ne_of_lastNumber (lastNumber_nameOf plain number) other

theorem builderOf_ne (kind : Construct.Kind) (number : Nat) {word : String}
    (other : word.toList.all fun char => !char.isDigit)
    (named : word ≠ "builder") :
    builderOf kind number ≠ word := by
  by_cases plain : ∀ name, kind ≠ .component name
  · exact ne_of_lastNumber (lastNumber_builderOf plain number) other
  · obtain ⟨name, rfl⟩ := not_forall_not.mp plain
    exact named.symm

theorem frame_header {kind : Construct.Kind} {name html : String}
    {frame : Frame} (plain : ∀ name, kind ≠ .component name)
    (framed : Declaration.frame signatures kind name html = .ok frame) :
    ∃ rest, frame.header = name ++ " := func(" ++ rest := by
  cases kind with
  | component name => exact absurd rfl (plain name)
  | loop item collection type =>
      obtain rfl := Except.ok.inj framed
      refine ⟨"_ int, " ++ item ++ " " ++ elementType type ++ ") string", ?_⟩
      apply String.toList_inj.mp
      simp
  | conditional | alternative | placeholder | slot =>
      obtain rfl := Except.ok.inj framed
      exact ⟨") string", by simp [closure, String.append_assoc]⟩

theorem inset_indentLines (lines : List String) :
    ∀ line ∈ Emit.indentLines lines, Inset line := by
  intro line member
  obtain ⟨inner, _, rfl⟩ := List.mem_map.mp member
  exact inset_indentLine inner

theorem inset_body (builder : String) (inner : List Declaration)
    (segments : List Segment) :
    ∀ line ∈ body builder inner segments, Inset line := by
  rw [body, List.cons_append, List.cons_append]
  simp only [List.forall_mem_cons, List.forall_mem_append]
  refine ⟨by simp [Inset], ⟨?_, ?_⟩, by simp [Inset]⟩
  · intro line member
    obtain ⟨declaration, _, inside⟩ := List.mem_flatMap.mp member
    exact inset_indentLines declaration.lines line inside
  · intro line member
    obtain ⟨segment, _, rfl⟩ := List.mem_map.mp member
    simp [Inset]

theorem inset_callBody (linked : LinkedCall)
    (slots : List (String × Declaration)) :
    ∀ line ∈ callBody linked slots, Inset line := by
  rw [callBody]
  simp only [List.forall_mem_append]
  refine ⟨?_, by simp [Inset]⟩
  intro line member
  obtain ⟨slot, _, inside⟩ := List.mem_flatMap.mp member
  exact inset_indentLines slot.2.lines line inside

theorem inset_content {content : Content} {builder : String}
    {inner : List Declaration}
    (written : Declaration.content signatures construct builder inner =
      .ok content) :
    ∀ line ∈ content.body, Inset line := by
  unfold Declaration.content at written
  split at written
  · obtain ⟨linked, _, rfl⟩ := Except.map_eq_ok.mp written
    exact inset_callBody linked _
  · obtain rfl := Except.ok.inj written
    exact inset_body builder inner _

theorem statement_of_closure (plain : ∀ name, construct.kind ≠ .component name)
    (declared : ofConstruct signatures construct = .ok part) :
    (Emit.indentLines part.lines).filterMap ofLine? = [.closure part.name] := by
  obtain ⟨content, frame, _, written, framed, named, _, lines⟩ :=
    ofConstruct_ok declared
  obtain ⟨rest, header⟩ := frame_header plain framed
  have first : ofLine? (Emit.indentLine (frame.header ++ " \x7b")) =
      some (.closure part.name) := by
    have whole : frame.header ++ " \x7b" =
        part.name ++ " := func(" ++ (rest ++ " \x7b") := by
      rw [header, String.append_assoc]
    rw [Emit.indentLine, if_neg (by simp), whole]
    rw [named]
    exact ofLine?_closure (spelled_nameOf plain _)
      (nameOf_ne plain _ (by decide))
      (nameOf_ne plain _ (by decide)) _
  have last : [Emit.indentLine "\x7d"].filterMap ofLine? = [] := by decide
  rw [lines, Emit.indentLines, List.cons_append, List.map_cons, List.map_append,
    List.map_singleton, ← Emit.indentLines, List.filterMap_cons_some first,
    List.filterMap_append,
    filterMap_indentLines (inset_content written), last, List.append_nil]

theorem statements_eq_body
    (declared : ofConstruct signatures construct = .ok part) :
    ∃ content, Declaration.content signatures construct part.builder
      part.inner = .ok content ∧
      part.statements = content.body.filterMap ofLine? := by
  obtain ⟨content, frame, _, written, framed, named, _, lines⟩ :=
    ofConstruct_ok declared
  refine ⟨content, written, ?_⟩
  have first : ofLine? (frame.header ++ " \x7b") = none := by
    by_cases plain : ∀ name, construct.kind ≠ .component name
    · obtain ⟨rest, header⟩ := frame_header plain framed
      have chars : (frame.header ++ " \x7b").toList =
          part.name.toList ++ ' ' ::
            (":= func(".toList ++ (rest ++ " \x7b").toList) := by
        rw [header]
        simp
      refine ofLine?_unindented chars ?_
      rw [named]
      exact spelled_nameOf plain _
    · obtain ⟨name, kind⟩ := not_forall_not.mp plain
      rw [kind, Declaration.frame] at framed
      split at framed
      · cases framed
      · rename_i parameters _
        obtain rfl := Except.ok.inj framed
        have chars : ("func " ++ name ++ "(" ++
              ", ".intercalate (parameters.map Parameter.text) ++
            ") string" ++ " \x7b").toList = "func".toList ++ ' ' :: (name ++
              "(" ++
              ", ".intercalate (parameters.map Parameter.text) ++ ") string" ++
              " \x7b").toList := by
          simp
        exact ofLine?_unindented chars (by decide)
  have last : ["\x7d"].filterMap ofLine? = [] := by decide
  rw [statements, lines, List.cons_append, List.filterMap_cons_none first,
    List.filterMap_append, last, List.append_nil]

theorem statements_of_closures {inner : List Declaration}
    (closures : ∀ part ∈ inner,
      (Emit.indentLines part.lines).filterMap ofLine? = [.closure part.name]) :
    (inner.flatMap fun part => Emit.indentLines part.lines).filterMap ofLine? =
      inner.map fun part => .closure part.name := by
  rw [List.filterMap_flatMap, List.flatMap_congr closures, List.map_eq_flatMap]

/-- A construct that is no placeholder declares its builder and its parts, then
writes its segments, then returns what is built. -/
theorem statements_plain (plain : construct.kind.target? = none)
    (below : ∀ child ∈ construct.children, ∀ name, child.kind ≠ .component name)
    (declared : ofConstruct signatures construct = .ok part) :
    part.statements = .builder part.builder ::
      (part.inner.map fun inner => .closure inner.name) ++
      (part.segments.map fun segment => .write part.builder segment.text) ++
      [.result (part.builder ++ ".String()")] := by
  obtain ⟨content, written, statements⟩ := statements_eq_body declared
  obtain ⟨_, _, made, _⟩ := ofConstruct_ok declared
  obtain ⟨_, builder, segments⟩ := ofConstruct_fields declared
  have closures : ∀ inner ∈ part.inner,
      (Emit.indentLines inner.lines).filterMap ofLine? =
        [.closure inner.name] := by
    intro inner listed
    obtain ⟨child, inside, made⟩ := made.exists_of_mem_right listed
    exact statement_of_closure (below child inside) made
  have spelled : part.builder.toList.all isIdentifierPart := by
    rw [builder]
    exact spelled_builderOf _ _
  have writes : (ofLine? ∘ fun segment : Segment =>
      "\t" ++ part.builder ++ ".WriteString(" ++ segment.text ++ ")") =
        some ∘ fun segment => .write part.builder segment.text := by
    funext segment
    apply ofLine?_write spelled
    · rw [builder]
      exact builderOf_ne _ _ (by decide) (by decide)
    · rw [builder]
      exact builderOf_ne _ _ (by decide) (by decide)
  have returns : ["\treturn " ++ part.builder ++ ".String()"].filterMap
      ofLine? = [.result (part.builder ++ ".String()")] := by
    rw [String.append_assoc, List.filterMap_cons_some (ofLine?_result _),
      List.filterMap_nil]
  rw [statements, content_plain plain written, segments content written, body,
    List.cons_append, List.cons_append,
    List.filterMap_cons_some (ofLine?_builder spelled), List.filterMap_append,
    List.filterMap_append, statements_of_closures closures, returns,
    List.filterMap_map, writes,
    List.filterMap_eq_map]
  rfl

theorem slots_sublist (children : List Construct) (inner : List Declaration) :
    ((slots children inner).map Prod.snd).Sublist inner := by
  induction children generalizing inner with
  | nil => exact List.nil_sublist inner
  | cons child rest induction =>
      cases inner with
      | nil => exact List.Sublist.refl _
      | cons declaration more =>
          have later := induction more
          unfold slots at later ⊢
          cases kind : child.kind with
          | slot name =>
              simp only [List.zip_cons_cons, List.filterMap_cons, kind,
                List.map_cons]
              exact later.cons_cons declaration
          | component | loop | conditional | alternative | placeholder =>
              simp only [List.zip_cons_cons, List.filterMap_cons, kind]
              exact later.cons declaration

/-- A placeholder declares the slots that its call uses, then makes the call. -/
theorem statements_placeholder {target : String} {arguments : List Argument}
    (kind : construct.kind = .placeholder target arguments)
    (below : ∀ child ∈ construct.children, ∀ name, child.kind ≠ .component name)
    (declared : ofConstruct signatures construct = .ok part) :
    ∃ linked, Call.link signatures target construct.html arguments
        (construct.children.filterMap Construct.slotArgument?) = .ok linked ∧
      part.statements =
        (((slots construct.children part.inner).filter fun slot =>
          linked.usedSlots.contains slot.1).map fun slot =>
            .closure slot.2.name) ++
        [.result linked.call.text] := by
  obtain ⟨content, written, statements⟩ := statements_eq_body declared
  obtain ⟨_, _, made, _⟩ := ofConstruct_ok declared
  obtain ⟨linked, links, body⟩ := content_placeholder kind made written
  refine ⟨linked, links, ?_⟩
  have closures :
      ∀ slot ∈ ((slots construct.children part.inner).filter fun slot =>
        linked.usedSlots.contains slot.1).map Prod.snd,
      (Emit.indentLines slot.lines).filterMap ofLine? =
        [.closure slot.name] := by
    intro slot listed
    have used := (List.filter_sublist.map Prod.snd).subset listed
    obtain ⟨child, inside, made⟩ :=
      made.exists_of_mem_right
        ((slots_sublist construct.children part.inner).subset used)
    exact statement_of_closure (below child inside) made
  have returns : ["\treturn " ++ linked.call.text].filterMap ofLine? =
      [.result linked.call.text] := by
    rw [List.filterMap_cons_some (ofLine?_result _), List.filterMap_nil]
  have declares := statements_of_closures closures
  rw [List.flatMap_map, List.map_map] at declares
  rw [statements, body, callBody, List.filterMap_append, returns]
  exact congrArg (· ++ _) declares

end Declaration

end Stencil
