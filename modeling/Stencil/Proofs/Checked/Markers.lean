import Stencil.Proofs.Checked.Reading
import Stencil.Proofs.Markers

namespace Stencil.Checked

open Text

/-! Markers read from the bytes of a text with every slice, every index and
every difference checked. -/

section Readers

def readInterpolation (chars : List Char) (start limit : Nat)
    (location : Location) :
    Reading Marker.Failure Interpolation := do
  let text ← slice? chars start limit
  let inside ← slice? text 2 (byteLength text)
  match find? inside Interpolation.closer 0 with
  | none => throw ⟨.unclosedInterpolation, ⟨start, limit⟩⟩
  | some found =>
      let close := found + 2
      let content ← slice? text 2 close
      if (trim content).isEmpty then
        throw ⟨.emptyInterpolation, ⟨start, start + close + 2⟩⟩
      else
        let raw ← slice? text 0 (close + 2)
        return ⟨String.ofList (trim content), String.ofList raw,
          ⟨start, start + close + 2⟩, location⟩

def unquote (text : List Char) : Option (Option (List Char)) :=
  if byteLength text < 2 then some none
  else do
    let first ← byteAt text 0
    let behind ← minus? (byteLength text) 1
    let last ← byteAt text behind
    if (first == '"' || first == '\'') && first == last then
      let inner ← slice? text 1 behind
      return some inner
    else return none

def argument? (kind : Rune.Kind) (argument : List Char) :
    Option (Option (List Char)) :=
  if kind.declares then do
    let inner ← unquote argument
    return inner.filter spellsIdentifier
  else if spellsPath argument then some (some argument)
  else some none

def readArgument (text : List Char) (kind : Rune.Kind)
    (opening start limit : Nat) (location : Location) :
    Reading Marker.Failure (Option Rune) := do
  let inside ← slice? text opening (byteLength text)
  match find? inside [')'] 0 with
  | none => throw ⟨.unclosedRune kind, ⟨start, limit⟩⟩
  | some found =>
      let close := opening + found
      let span : Span := ⟨start, start + close + 1⟩
      let raw ← slice? text 0 (close + 1)
      let argument ← slice? text (opening + 1) close
      match ← argument? kind argument with
      | none => throw ⟨.badArgument kind, span⟩
      | some value =>
          if kind = .slot ∧ location = .tag then throw ⟨.slotInsideTag, span⟩
          else return some ⟨kind, String.ofList value, String.ofList raw, span,
            location⟩

def readRune (chars : List Char) (start limit : Nat) (location : Location) :
    Reading Marker.Failure (Option Rune) := do
  let text ← slice? chars start limit
  let behind ← slice? text 1 (byteLength text)
  let opening := 1 + ((octets behind).takeWhile Char.isLower).length
  let name ← slice? text 1 opening
  match Rune.Kind.ofName? (String.ofList name) with
  | none => return none
  | some kind =>
      if peek text opening == '(' then
        readArgument text kind opening start limit location
      else return none

def readMarker (chars run : List Char) (span : Span) (location : Location)
    (place : Nat) :
    Reading Marker.Failure (Option Marker) := do
  let bytes ← bytesFrom run place
  if beginsWith Interpolation.opener bytes then
    let found ← readInterpolation chars (span.start + place) span.stop location
    return some (.interpolation found)
  else if (← byteAt run place) == '$' then
    let found ← readRune chars (span.start + place) span.stop location
    return found.map .rune
  else return none

def markersFrom (chars run : List Char) (span : Span) (context : Marker.Context)
    (place : Nat) :
    Reading Marker.Failure (List Marker) := do
  if atEnd run place then return []
  else
    match ← readMarker chars run span context.location place with
    | some marker =>
        let behind ← minus? marker.span.stop span.start
        let ⟨next, _⟩ ← onward? run place behind
        let more ← markersFrom chars run span context next
        return marker :: more
    | none =>
        let byte ← byteAt run place
        let ⟨next, _⟩ ← onward? run place (place + 1)
        markersFrom chars run span (context.step byte ((octets run).drop next))
          next
termination_by byteLength run - place

def cutAt (chars : List Char) (start stop : Nat) :
    List Marker → Option MarkedText
  | [] => do
      let text ← slice? chars start stop
      return ⟨text, []⟩
  | marker :: rest => do
      let lead ← slice? chars start marker.span.start
      let behind ← cutAt chars marker.span.stop stop rest
      return ⟨lead, (marker, behind.lead) :: behind.tail⟩

def marked (source : Source) (span : Span) (location : Location) :
    Reading TemplateError MarkedText := do
  let run ← slice? source.chars span.start span.stop
  let markers ← (markersFrom source.chars run span (.ofLocation location)
    0).mapError
    fun failure => source.error failure.span (.marker failure.problem)
  cutAt source.chars span.start span.stop markers

end Readers

section Agreement

variable {chars : List Char} {limit : Nat}

theorem readInterpolation_eq {offset : Nat} {text : List Char}
    (here : slice? chars offset limit = some text)
    (begins : beginsWith Interpolation.opener text) (location : Location) :
    readInterpolation chars offset limit location =
      .settled ((Interpolation.read location ⟨offset, text⟩).map Prod.fst) := by
  obtain ⟨_, _, _, _, limit_eq⟩ := slice?_eq_some.mp here
  obtain ⟨rest, shape⟩ := List.isPrefixOf_iff_prefix.mp begins
  have inside : slice? text 2 (byteLength text) = some rest :=
    slice?_eq_some.mpr ⟨Interpolation.opener, [],
        by rw [List.append_nil, shape], rfl, by
      rw [← shape, byteLength_append]
      rfl⟩
  have advanced : Cursor.advance ⟨offset, text⟩ Interpolation.opener.length =
      ⟨offset + 2, rest⟩ := by
    rw [Cursor.advance, ← shape, List.take_left, List.drop_left]
    rfl
  have search : AsciiSearch (beginsWith Interpolation.closer) :=
    asciiSearch_beginsWith (List.all_eq_true.mp rfl)
  simp only [readInterpolation, here, inside, Reading.lift_eq,
    Reading.settled_ok_bind, Interpolation.read, advanced, Cursor.skipUntil]
  rcases find?_cases (Cursor.stands_start rest) search with
    ⟨missing, done⟩ | ⟨char, more, present, found, closes⟩
  · have ended : dropUntil (beginsWith Interpolation.closer) rest = [] := done
    have content : takeUntil (beginsWith Interpolation.closer) rest = rest := by
      have whole := takeUntil_append_dropUntil (beginsWith Interpolation.closer)
        rest
      rwa [ended, List.append_nil] at whole
    have stop : limit = offset + 2 + byteLength rest := by
      rw [limit_eq, ← shape, byteLength_append, Nat.add_assoc]
      rfl
    simp only [missing, ended, content, stop]
    rfl
  · obtain ⟨after, behind⟩ :
        ∃ after, dropUntil (beginsWith Interpolation.closer) rest =
        '}' :: '}' :: after := ⟨_, closes.1⟩
    have whole := takeUntil_append_dropUntil (beginsWith Interpolation.closer)
      rest
    have place : find? rest Interpolation.closer 0 =
        some
          (byteLength (takeUntil (beginsWith Interpolation.closer) rest)) := by
      rw [present, Cursor.skipUntil, Nat.zero_add]
    generalize takeUntil (beginsWith Interpolation.closer) rest = content at *
    have spelled : text =
        Interpolation.opener ++
          (content ++ (Interpolation.closer ++ after)) := by
      rw [← shape, ← whole, behind]
      rfl
    have contentSlice : slice? text 2 (byteLength content + 2) = some content :=
      slice?_eq_some.mpr ⟨_, _, spelled, rfl, Nat.add_comm _ _⟩
    have rawSlice : slice? text 0 (byteLength content + 2 + 2) =
        some (Interpolation.opener ++ content ++ Interpolation.closer) :=
      slice?_eq_some.mpr ⟨[], after, by simp [spelled], rfl, by
        simp only [byteLength_append, Interpolation.opener,
          Interpolation.closer]
        simp +arith [Char.utf8Size]⟩
    have stop :
        Cursor.advance ⟨offset + 2 + byteLength content, '}' :: '}' :: after⟩
        Interpolation.closer.length =
          ⟨offset + (byteLength content + 2) + 2, after⟩ := by
      rw [Nat.add_comm (byteLength content), ← Nat.add_assoc]
      rfl
    simp only [place, contentSlice, rawSlice, behind, stop, Reading.lift_eq,
      Reading.settled_ok_bind]
    cases trim content <;> rfl

theorem byteAt_first (char : Char) (rest : List Char) :
    ∃ octet, byteAt (char :: rest) 0 = some octet ∧
      ∀ test, AsciiTest test → test octet = test char := by
  obtain ⟨octet, more, bytes⟩ :=
    List.exists_cons_of_ne_nil (octetsOf_ne_nil char)
  refine ⟨octet, ?_, ?_⟩
  · rw [byteAt, octets_cons, bytes]
    rfl
  · intro test ascii
    exact ascii.all_octetsOf char octet
      (by rw [bytes]; exact List.mem_cons_self ..)

theorem byteAt_last (init : List Char) (last : Char) :
    ∃ octet, byteAt (init ++ [last]) (byteLength (init ++ [last]) - 1) =
      some octet ∧
      ∀ test, AsciiTest test → test octet = test last := by
  refine ⟨(octetsOf last).getLast (octetsOf_ne_nil last), ?_, ?_⟩
  · rw [byteAt, ← length_octets, ← List.getLast?_eq_getElem?, octets_append,
      octets_cons, octets_nil, List.append_nil, List.getLast?_append,
      List.getLast?_eq_getLast_of_ne_nil (octetsOf_ne_nil last)]
    rfl
  · intro test ascii
    exact ascii.all_octetsOf last _ (List.getLast_mem _)

theorem unquote_ends {text rest init : List Char} {mark last : Char}
    (opens : text = mark :: rest) (closes : text = init ++ [last]) :
    ∃ first final, (∀ test, AsciiTest test → test first = test mark) ∧
      (∀ test, AsciiTest test → test final = test last) ∧
      unquote text =
        if byteLength text < 2 then some none
        else if (first == '"' || first == '\'') && first == final then
          (slice? text 1 (byteLength text - 1)).map some
        else some none := by
  obtain ⟨first, firstAt, firstTest⟩ := byteAt_first mark rest
  obtain ⟨final, finalAt, finalTest⟩ := byteAt_last init last
  rw [← opens] at firstAt
  rw [← closes] at finalAt
  have positive : 1 ≤ byteLength text := byteLength_pos (by simp [opens])
  refine ⟨first, final, firstTest, finalTest, ?_⟩
  simp only [unquote, firstAt, minus?, if_pos positive, Option.bind_eq_bind,
    Option.bind_some, finalAt]
  cases slice? text 1 (byteLength text - 1) <;> rfl

theorem unquote_eq (text : List Char) :
    (unquote text).map (fun inner => inner.filter spellsIdentifier) =
      some (Rune.quotedIdentifier? text) := by
  rcases List.eq_nil_or_concat text with rfl | ⟨init, last, closes⟩
  · rfl
  · rw [List.concat_eq_append] at closes
    obtain ⟨mark, rest, opens⟩ := List.exists_cons_of_ne_nil (l := text)
      (by simp [closes])
    obtain ⟨first, final, firstTest, finalTest, unquoted⟩ :=
      unquote_ends opens closes
    have quotes : (first == '"' || first == '\'') =
        (mark == '"' || mark == '\'') := by
      rw [firstTest _ (asciiTest_beq (show isNarrow '"' from rfl)),
        firstTest _ (asciiTest_beq (show isNarrow '\'' from rfl))]
    rw [unquoted, quotes]
    by_cases quoted : mark == '"' || mark == '\''
    · have narrow : isNarrow mark := by
        rcases Bool.or_eq_true_iff.mp quoted with double | single
        · rw [eq_of_beq double]
          rfl
        · rw [eq_of_beq single]
          rfl
      obtain rfl : first = mark := by
        simpa using firstTest _ (asciiTest_beq narrow)
      cases init with
      | nil =>
          obtain ⟨rfl, rfl⟩ := List.cons.inj (opens.symm.trans closes)
          simp [opens, Rune.quotedIdentifier?, utf8Size_of_narrow narrow]
      | cons char inner =>
          have parts : first :: rest = char :: (inner ++ [last]) :=
            opens.symm.trans closes
          obtain ⟨rfl, rfl⟩ := List.cons.inj parts
          have same : (first == final) = (last == first) := by
            rw [← finalTest _ (asciiTest_beq narrow), Bool.beq_comm]
          have size : byteLength text =
              1 + byteLength inner + last.utf8Size := by
            rw [opens, byteLength_cons, byteLength_append,
              utf8Size_of_narrow narrow]
            simp [Nat.add_assoc]
          have wide := last.utf8Size_pos
          rw [if_neg (by omega), same, quoted, Bool.true_and]
          by_cases paired : last == first
          · obtain rfl := eq_of_beq paired
            have inside : slice? text 1 (byteLength text - 1) = some inner := by
              refine slice?_eq_some.mpr ⟨[last], [last], opens, ?_, ?_⟩
              · simp [utf8Size_of_narrow narrow]
              · rw [size, utf8Size_of_narrow narrow, Nat.add_sub_cancel]
            rw [if_pos paired, inside, opens]
            simp [Rune.quotedIdentifier?, quoted, Option.filter]
          · rw [if_neg paired, opens]
            simp only [Rune.quotedIdentifier?, List.getLast?_concat]
            rw [if_neg]
            · rfl
            · simpa [quoted] using fun same =>
                absurd same (by simpa using paired)
    · rw [eq_false_of_ne_true quoted, opens, Rune.quotedIdentifier?,
        eq_false_of_ne_true quoted]
      split <;> rfl

theorem argument?_eq (kind : Rune.Kind) (argument : List Char) :
    argument? kind argument = some (kind.value? argument) := by
  unfold argument? Rune.Kind.value?
  split
  · rw [← unquote_eq]
    cases unquote argument <;> rfl
  · split <;> rfl

theorem beginsWith_word {word : List Char} (small : ∀ char ∈ word, char.isLower)
    (chars : List Char) :
    beginsWith (word ++ ['(']) chars =
      (word == chars.takeWhile Char.isLower &&
        (chars.dropWhile Char.isLower).headD '\x00' == '(') := by
  induction word generalizing chars with
  | nil =>
      cases chars with
      | nil => rfl
      | cons char rest =>
          have here : beginsWith ['('] (char :: rest) = (char == '(') := by
            rw [beginsWith_cons, Bool.beq_comm]
            exact Bool.and_true _
          rw [List.nil_append, here]
          by_cases lower : char.isLower
          · have other : char ≠ '(' := by
              rintro rfl
              exact absurd lower (by decide)
            rw [List.takeWhile_cons_of_pos lower, beq_false_of_ne other]
            rfl
          · rw [List.takeWhile_cons_of_neg lower,
              List.dropWhile_cons_of_neg lower]
            rfl
  | cons first word induction =>
      have here := small first (List.mem_cons_self ..)
      have behind := induction fun char member =>
        small char (List.mem_cons_of_mem _ member)
      cases chars with
      | nil => rfl
      | cons char rest =>
          rw [List.cons_append, beginsWith_cons]
          by_cases same : first = char
          · subst same
            rw [behind, List.takeWhile_cons_of_pos here,
              List.dropWhile_cons_of_pos here]
            simp
          · rw [beq_false_of_ne same, Bool.false_and]
            by_cases lower : char.isLower
            · rw [List.takeWhile_cons_of_pos lower]
              simp [same]
            · rw [List.takeWhile_cons_of_neg lower]
              rfl

theorem opened?_eq (chars : List Char) :
    Rune.opened? ('$' :: chars) =
      if (chars.dropWhile Char.isLower).headD '\x00' == '(' then
        Rune.Kind.ofName? (String.ofList (chars.takeWhile Char.isLower))
      else none := by
  have opener : ∀ kind : Rune.Kind, beginsWith kind.opener ('$' :: chars) =
      (kind.name == String.ofList (chars.takeWhile Char.isLower) &&
        (chars.dropWhile Char.isLower).headD '\x00' == '(') := by
    intro kind
    have small : ∀ char ∈ kind.name.toList, char.isLower := by
      cases kind <;> exact List.all_eq_true.mp rfl
    have name : (kind.name == String.ofList (chars.takeWhile Char.isLower)) =
        (kind.name.toList == chars.takeWhile Char.isLower) := by
      rw [Bool.eq_iff_iff, beq_iff_eq, beq_iff_eq, ← String.toList_inj,
        String.toList_ofList]
    rw [Rune.Kind.opener, List.cons_append, beginsWith_cons,
      beginsWith_word small, name]
    rfl
  unfold Rune.opened? Rune.Kind.ofName?
  simp only [opener]
  split
  · rename_i closes
    simp only [closes, Bool.and_true]
  · rename_i other
    simp only [eq_false_of_ne_true other, Bool.and_false]
    rfl

theorem opened?_of_headD {chars : List Char}
    (other : (chars.headD '\x00' == '$') = false) :
    Rune.opened? chars = none := by
  unfold Rune.opened?
  apply List.find?_eq_none.mpr
  intro kind _ begins
  obtain ⟨rest, shape⟩ := List.isPrefixOf_iff_prefix.mp begins
  rw [← shape] at other
  exact absurd other (by simp [Rune.Kind.opener])

theorem readArgument_eq {kind : Rune.Kind} {arguments : List Char}
    {offset : Nat}
    (limit_eq : limit = offset + byteLength (kind.opener ++ arguments))
    (location : Location)
    (opened : Rune.opened? (kind.opener ++ arguments) = some kind) :
    readArgument (kind.opener ++ arguments) kind
      (1 + byteLength kind.name.toList) offset limit
        location =
      .settled ((Rune.read? location ⟨offset, kind.opener ++ arguments⟩).map
        fun found => found.map Prod.fst) := by
  have size : byteLength kind.opener = 1 + byteLength kind.name.toList + 1 := by
    simp [Rune.Kind.opener, Char.utf8Size, Nat.add_assoc]
  have inside : slice? (kind.opener ++ arguments)
      (1 + byteLength kind.name.toList)
      (byteLength (kind.opener ++ arguments)) = some ('(' :: arguments) := by
    refine slice?_eq_some.mpr
      ⟨'$' :: kind.name.toList, [], by simp [Rune.Kind.opener], rfl, ?_⟩
    rw [byteLength_append, size, Nat.add_assoc]
    rfl
  have advanced : Cursor.advance ⟨offset, kind.opener ++ arguments⟩
      kind.opener.length = ⟨offset + byteLength kind.opener, arguments⟩ := by
    rw [Cursor.advance, List.take_left, List.drop_left]
  simp only [readArgument, inside, Reading.lift_eq, Reading.settled_ok_bind,
    Rune.read?, opened, advanced, Cursor.skipWhile]
  have whole : (arguments.takeWhile fun char => char != ')') ++
      (arguments.dropWhile fun char => char != ')') = arguments :=
        List.takeWhile_append_dropWhile
  rcases find?_mark_cases (Cursor.stands_start ('(' :: arguments))
    (show isNarrow ')' from rfl) with
    ⟨missing, done⟩ | ⟨char, more, present, found, closes⟩
  · have ended : (arguments.dropWhile fun char => char != ')') = [] := done
    rw [ended, List.append_nil] at whole
    simp only [missing, ended, whole]
    rw [limit_eq, byteLength_append, ← Nat.add_assoc]
    rfl
  · have behind : (arguments.dropWhile fun char => char != ')') =
      char :: more := found
    obtain rfl : char = ')' := by
      have stopped := List.head?_dropWhile_not (fun char => char != ')')
        arguments
      rw [behind] at stopped
      simpa using stopped
    have place : find? ('(' :: arguments) [')'] 0 =
        some
          (1 + byteLength (arguments.takeWhile fun char => char != ')')) := by
      rw [present, Cursor.skipWhile, Nat.zero_add]
      rfl
    rw [behind] at whole
    generalize (arguments.takeWhile fun char => char != ')') = argument at *
    subst whole
    have rawSlice : slice? (kind.opener ++ (argument ++ ')' :: more)) 0
        (1 + byteLength kind.name.toList + (1 + byteLength argument) + 1) =
          some (kind.opener ++ argument ++ [')']) := by
      refine slice?_eq_some.mpr ⟨[], more, by simp, rfl, ?_⟩
      rw [byteLength_append, byteLength_append, size]
      simp +arith [Char.utf8Size]
    have argumentSlice : slice? (kind.opener ++ (argument ++ ')' :: more))
        (1 + byteLength kind.name.toList + 1)
        (1 + byteLength kind.name.toList + (1 + byteLength argument)) =
            some argument := by
      refine slice?_eq_some.mpr ⟨kind.opener, ')' :: more, rfl, size, ?_⟩
      omega
    have after :
        Cursor.advance ⟨offset + byteLength kind.opener + byteLength argument,
          ')' :: more⟩
        1 =
          ⟨offset + (1 + byteLength kind.name.toList +
            (1 + byteLength argument)) + 1, more⟩ := by
      have closing :
          ∀ place, Cursor.advance ⟨place, ')' :: more⟩ 1 = ⟨place + 1, more⟩ :=
        fun _ => rfl
      rw [closing, size]
      congr 1
      omega
    simp only [place, rawSlice, argumentSlice, behind, after, argument?_eq,
      Reading.lift_eq, Reading.settled_ok_bind]
    cases kind.value? argument with
    | none => rfl
    | some value =>
        by_cases misplaced : kind = .slot ∧ location = .tag
        · simp only [if_pos misplaced]
          rfl
        · simp only [if_neg misplaced]
          rfl

theorem readRune_eq {offset : Nat} {rest : List Char}
    (here : slice? chars offset limit = some ('$' :: rest))
    (location : Location) :
    readRune chars offset limit location =
      .settled ((Rune.read? location ⟨offset, '$' :: rest⟩).map
        fun found => found.map Prod.fst) := by
  obtain ⟨_, _, _, _, limit_eq⟩ := slice?_eq_some.mp here
  have whole : rest.takeWhile Char.isLower ++ rest.dropWhile Char.isLower =
      rest :=
    List.takeWhile_append_dropWhile
  have behind : slice? ('$' :: rest) 1 (byteLength ('$' :: rest)) = some rest :=
    slice?_eq_some.mpr ⟨['$'], [], by simp, rfl, rfl⟩
  have nameSlice :
      slice? ('$' :: rest) 1 (1 + byteLength (rest.takeWhile Char.isLower)) =
      some (rest.takeWhile Char.isLower) :=
    slice?_eq_some.mpr ⟨['$'], rest.dropWhile Char.isLower,
      by rw [whole]; rfl, rfl, rfl⟩
  have stands : Cursor.Stands ⟨1 + byteLength (rest.takeWhile Char.isLower),
      rest.dropWhile Char.isLower⟩ ('$' :: rest) :=
    ⟨'$' :: rest.takeWhile Char.isLower, by rw [List.cons_append, whole], rfl⟩
  have paren := peek_test stands (asciiTest_beq (show isNarrow '(' from rfl))
  have opened := opened?_eq rest
  simp only [readRune, here, behind, takeWhile_octets asciiTest_isLower,
    length_octets, nameSlice, Reading.lift_eq, Reading.settled_ok_bind, paren]
  cases named :
    Rune.Kind.ofName? (String.ofList (rest.takeWhile Char.isLower)) with
  | none =>
      rw [named, ite_self] at opened
      simp only [Rune.read?, opened]
      rfl
  | some kind =>
      rw [named] at opened
      by_cases closes : (rest.dropWhile Char.isLower).headD '\x00' == '('
      · obtain ⟨arguments, shape⟩ := exists_cons_of_headD (by decide) closes
        have name : kind.name.toList = rest.takeWhile Char.isLower := by
          have found := List.find?_some named
          rw [eq_of_beq found, String.toList_ofList]
        have spelled : '$' :: rest = kind.opener ++ arguments := by
          rw [shape, ← name] at whole
          rw [Rune.Kind.opener, ← whole]
          simp
        rw [if_pos closes] at opened
        simp only [if_pos closes, ← name]
        rw [spelled] at opened limit_eq ⊢
        exact readArgument_eq limit_eq location opened
      · rw [if_neg closes] at opened
        simp only [if_neg closes, Rune.read?, opened]
        rfl

end Agreement

section Contexts

open Marker

def Narrow (context : Context) : Prop :=
  ∀ mark, context = .quoted mark → isNarrow mark

variable {context : Context}

theorem narrow_ofLocation (location : Location) :
    Narrow (.ofLocation location) := by
  intro mark same
  cases location <;> cases same

theorem step_wide {char : Char} (narrow : Narrow context)
    (wide : ¬ isNarrow char) (rest : List Char) :
    context.step char rest = context := by
  cases context with
  | text =>
      have other : Context.beginsTag char rest = false := by
        unfold Context.beginsTag
        rw [beq_of_wide wide rfl, Bool.false_and]
      rw [Context.step, other]
      rfl
  | tag =>
      rw [Context.step, beq_of_wide wide rfl, beq_of_wide wide rfl,
        beq_of_wide wide rfl]
      rfl
  | quoted mark =>
      rw [Context.step, beq_of_wide wide (narrow mark rfl)]
      rfl
  | value => rfl

theorem step_octets (context : Context) (char : Char) (rest : List Char) :
    context.step char (octets rest) = context.step char rest := by
  have next : ∀ chars : List Char, Context.beginsTag char chars =
      (char == '<' && ((chars.headD '\x00').isAlpha ||
        chars.headD '\x00' == '/')) := by
    intro chars
    cases chars <;> rfl
  cases context with
  | text =>
      rw [Context.step, Context.step, next, next,
        headD_octets asciiTest_isAlpha,
        headD_octets (asciiTest_beq (show isNarrow '/' from rfl))]
  | tag | quoted | value => rfl

theorem narrow_step (narrow : Narrow context) (char : Char) (rest : List Char) :
    Narrow (context.step char rest) := by
  by_cases small : isNarrow char
  · intro mark same
    cases context with
    | text =>
        rw [Context.step] at same
        split at same <;> cases same
    | tag =>
        rw [Context.step] at same
        split at same
        · cases same
          exact small
        · split at same <;> cases same
    | quoted other =>
        rw [Context.step] at same
        split at same
        · cases same
        · cases same
          exact narrow mark rfl
    | value => cases same
  · rw [step_wide narrow small]
    exact narrow

end Contexts

section Runs

variable {chars run rest : List Char} {span : Span} {place : Nat}

theorem byteAt_eq (stands : Cursor.Stands ⟨place, rest⟩ run) :
    byteAt run place = byteAt rest 0 := by
  rw [byteAt, byteAt, ← stands.octets_drop, List.getElem?_drop, Nat.add_zero]

theorem slice?_rest (sliced : slice? chars span.start span.stop = some run)
    (stands : Cursor.Stands ⟨place, rest⟩ run) :
    slice? chars (span.start + place) span.stop = some rest := by
  obtain ⟨before, rfl, size⟩ := stands
  obtain rfl : byteLength before = place := size
  exact (slice?_split sliced).2

theorem readMarker_eq (sliced : slice? chars span.start span.stop = some run)
    {cursor : Cursor} (stands : Cursor.Stands ⟨place, cursor.rest⟩ run)
    (offset : cursor.offset = span.start + place) (more : cursor.rest ≠ [])
    (location : Location) :
    readMarker chars run span location place =
      .settled ((Marker.read? location cursor).map fun found =>
        found.map Prod.fst) := by
  obtain ⟨start, rest⟩ := cursor
  obtain rfl : start = span.start + place := offset
  have here := slice?_rest sliced stands
  have bytes : bytesFrom run place = some (octets rest) := bytesFrom_eq stands
  have narrow : ∀ char ∈ Interpolation.opener, isNarrow char :=
    List.all_eq_true.mp rfl
  simp only [readMarker, bytes, Reading.lift_eq, Reading.settled_ok_bind,
    beginsWith_octets narrow, Marker.read?]
  by_cases opens : beginsWith Interpolation.opener rest
  · rw [if_pos opens, if_pos opens, readInterpolation_eq here opens]
    cases Interpolation.read location ⟨span.start + place, rest⟩ <;> rfl
  · obtain ⟨char, tail, rfl⟩ := List.exists_cons_of_ne_nil more
    obtain ⟨octet, found, alike⟩ := byteAt_first char tail
    have dollar := alike _ (asciiTest_beq (show isNarrow '$' from rfl))
    rw [if_neg opens, if_neg opens, byteAt_eq stands, found, Reading.lift_eq,
      Reading.settled_ok_bind, dollar]
    by_cases begins : char == '$'
    · obtain rfl := eq_of_beq begins
      rw [if_pos begins, readRune_eq here]
      rcases Rune.read? location ⟨span.start + place, '$' :: tail⟩ with _ | _ |
        _ <;> rfl
    · have none : Rune.opened? (char :: tail) = none :=
        opened?_of_headD (eq_false_of_ne_true begins)
      rw [if_neg begins]
      simp only [Rune.read?, none]
      rfl

theorem markersFrom_wide {context : Marker.Context} (narrow : Narrow context)
    (wide : List Char) {behind : List Char}
    (all : ∀ octet ∈ wide, ¬ isNarrow octet)
    (here : (octets run).drop place = wide ++ behind) :
    markersFrom chars run span context place =
      markersFrom chars run span context (place + wide.length) := by
  induction wide generalizing place with
  | nil => rfl
  | cons octet more induction =>
      have high := all octet (List.mem_cons_self ..)
      have inside : place < byteLength run := by
        rw [← length_octets]
        by_contra past
        rw [List.drop_eq_nil_of_le (Nat.le_of_not_lt past)] at here
        cases here
      have bytes : bytesFrom run place = some (octet :: (more ++ behind)) := by
        rw [bytesFrom, if_pos (Nat.le_of_lt inside), here, List.cons_append]
      have byte : byteAt run place = some octet := by
        rw [byteAt, ← List.head?_drop, here]
        rfl
      have next : (octets run).drop (place + 1) = more ++ behind := by
        rw [← List.drop_drop, here]
        rfl
      have opens : beginsWith Interpolation.opener (octet :: (more ++ behind)) =
          false := by
        rw [Interpolation.opener, beginsWith_cons, Bool.beq_comm,
          beq_of_wide high rfl]
        rfl
      have nothing : readMarker chars run span context.location place =
          .settled (.ok none) := by
        simp only [readMarker, bytes, byte, Reading.lift_eq,
          Reading.settled_ok_bind, opens,
          beq_of_wide high (show isNarrow '$' from rfl)]
        rfl
      have more :=
        induction (fun other member => all other
          (List.mem_cons_of_mem _ member)) next
      obtain ⟨_, onward⟩ := onward?_of_lt (Nat.lt_succ_self place) inside
      rw [markersFrom, atEnd, decide_eq_false (Nat.not_le.mpr inside), nothing,
        byte, onward]
      simp only [Bool.false_eq_true, if_false, Reading.lift_eq,
        Reading.settled_ok_bind, next]
      rw [step_wide narrow high, more, List.length_cons, Nat.add_assoc,
        Nat.add_comm 1]

/-- The bytes of a run give the markers of its characters. -/
theorem markersFrom_eq (sliced : slice? chars span.start span.stop = some run)
    {context : Marker.Context} (cursor : Cursor) (narrow : Narrow context)
    (stands : Cursor.Stands ⟨place, cursor.rest⟩ run)
    (offset : cursor.offset = span.start + place) :
    markersFrom chars run span context place =
      .settled ((Marker.scan context cursor).map MarkedText.markers) := by
  have last := atEnd_eq stands
  fun_induction Marker.scan context cursor generalizing place with
  | case1 context cursor done =>
      rw [markersFrom, last, done]
      rfl
  | case2 context cursor char rest behind failure read =>
      rw [markersFrom, last,
        readMarker_eq sliced stands offset (by simp [behind]), read, behind]
      rfl
  | case3 context cursor char rest behind marker next read induction =>
      have spans := Marker.read?_spans read
      have stop : marker.span.stop =
          span.start + (place + byteLength marker.raw.toList) := by
        rw [spans.span_eq, spans.reads.2, offset, Nat.add_assoc]
      have after :
          Cursor.Stands ⟨place + byteLength marker.raw.toList, next.rest⟩ run :=
        stands.reads ⟨spans.reads.1, rfl⟩
      have later := induction narrow after (by rw [← stop, spans.span_eq])
        (atEnd_eq after)
      have more : cursor.rest ≠ [] := by simp [behind]
      obtain ⟨_, onward⟩ : ∃ shrinks,
          onward? run place (place + byteLength marker.raw.toList) =
          some ⟨_, shrinks⟩ :=
        onward?_eq stands more
          (Nat.lt_add_of_pos_right (byteLength_pos spans.nonempty))
      rw [markersFrom, last, readMarker_eq sliced stands offset more, read,
        behind]
      simp only [Except.map, Option.map_some, Reading.settled_ok_bind, stop,
        minus?_add, Reading.lift_eq, onward, later]
      cases Marker.scan context next <;> rfl
  | case4 context cursor char rest behind read induction =>
      have passed : cursor.Reads [char] (cursor.advance 1) := by
        have reads := cursor.reads_advance 1
        rwa [behind, List.take_succ_cons, List.take_zero] at reads
      have after :
          Cursor.Stands ⟨place + char.utf8Size, (cursor.advance 1).rest⟩ run :=
        stands.reads ⟨passed.1, rfl⟩
      have later := induction (narrow_step narrow char rest) after
        (by rw [passed.2, offset, Nat.add_assoc]; rfl) (atEnd_eq after)
      have kept : ((Marker.scan (context.step char rest) (cursor.advance 1)).map
          fun marked => (⟨char :: marked.lead, marked.tail⟩ : MarkedText)).map
            MarkedText.markers =
          (Marker.scan (context.step char rest) (cursor.advance 1)).map
            MarkedText.markers := by
        cases Marker.scan (context.step char rest) (cursor.advance 1) <;> rfl
      rw [kept, ← later]
      -- A character of one byte is one step of the loop; a wider one takes a
      -- step for each byte.
      by_cases small : isNarrow char
      · have byte : byteAt run place = some char := by
          rw [byteAt_eq stands, behind, byteAt, octets_cons_narrow small]
          rfl
        have next : (octets run).drop (place + 1) = octets rest := by
          rw [← utf8Size_of_narrow small, after.octets_drop, Cursor.advance,
            behind]
          rfl
        have more : cursor.rest ≠ [] := by simp [behind]
        obtain ⟨_, onward⟩ : ∃ shrinks,
            onward? run place (place + 1) = some ⟨_, shrinks⟩ :=
          onward?_eq stands more (Nat.lt_succ_self place)
        rw [markersFrom, last, readMarker_eq sliced stands offset more, read,
          byte, onward, ← step_octets context char rest, behind,
          utf8Size_of_narrow small, ← next]
        rfl
      · have here : (octets run).drop place = octetsOf char ++ octets rest := by
          rw [stands.octets_drop, behind, octets_cons]
        rw [step_wide narrow small, ← length_octetsOf]
        exact markersFrom_wide
          narrow _ (fun octet => wide_of_mem_octetsOf small) here

end Runs

section Sources

variable {source : Source} {span : Span}

theorem cutAt_eq {chars : List Char} {start stop : Nat} {marked : MarkedText}
    (here : slice? chars start stop = some marked.chars)
    (placed : MarkedText.Placed (start + byteLength marked.lead) marked.tail) :
    cutAt chars start stop marked.markers = some marked := by
  obtain ⟨lead, tail⟩ := marked
  induction tail generalizing lead start with
  | nil =>
      simp only [MarkedText.chars, List.flatMap_nil, List.append_nil] at here
      simp [MarkedText.markers, cutAt, here]
  | cons entry tail induction =>
      obtain ⟨marker, text⟩ := entry
      obtain ⟨_, place, placed⟩ := placed
      simp only [MarkedText.chars, List.flatMap_cons, List.append_assoc] at here
      obtain ⟨before, here⟩ := slice?_split here
      obtain ⟨_, after⟩ := slice?_split here
      rw [place] at placed
      have behind := induction text after placed
      simp only [MarkedText.markers] at behind
      simp [MarkedText.markers, cutAt, place, before, behind]

theorem marked_eq {chars : List Char} (here : source.slice? span = some chars)
    (location : Location) :
    marked source span location = .settled (source.marked span location) := by
  have sliced : slice? source.chars span.start span.stop = some chars := here
  have read := markersFrom_eq sliced ⟨span.start, chars⟩
    (narrow_ofLocation location)
    (Cursor.stands_start chars) rfl
  have model : source.marked span location =
      source.cutMarkers span.start chars location := by
    rw [Source.marked, Source.slice_eq_ok.mpr here]
    rfl
  simp only [marked, sliced, Reading.lift_eq, Reading.settled_ok_bind, read,
    Reading.mapError_settled, model, Source.cutMarkers]
  cases scanned : Marker.scan (.ofLocation location) ⟨span.start, chars⟩ with
  | error failure => rfl
  | ok marked =>
      obtain ⟨spelled, placed⟩ := Marker.scan_spells scanned
      have cut : cutAt source.chars span.start span.stop marked.markers =
          some marked :=
        cutAt_eq (by rw [spelled]; exact sliced) placed
      simp only [Except.map, Except.mapError_ok, Reading.settled_ok_bind, cut,
        Reading.lift_eq]

end Sources

end Stencil.Checked
