import Stencil.Program
import Stencil.Proofs.Checked.Constructs
import Stencil.Proofs.Checked.Declarations
import Stencil.Proofs.Checked.Tokens
import Stencil.Proofs.Components

namespace Stencil.Checked

open Text

/-! The whole way from template files to generated text with every slice, every
index and every difference checked. No check fails, whatever the files are. -/

section Sources

def keep? (number : Nat) (chars : List Char) : Option (Option Source.Line) :=
  match trim chars with
  | [] => some none
  | kept => do
      let leading ← minus? (byteLength chars) (byteLength (trimStart chars))
      let before ← slice? chars 0 leading
      return some ⟨⟨number, before.length + 1⟩, kept⟩

def ofText (raw : String) : Option Source := do
  let lines ← ((lines raw.toList).zipIdx 1).mapM fun (chars, number) =>
    keep? number chars
  return Source.join 0 none (lines.filterMap id)

def positionAt (source : Source) (offset : Nat) : Option Position :=
  match (source.lines.takeWhile fun line => line.offset ≤ offset).length with
  | 0 => some ⟨1, 1⟩
  | index + 1 => do
      let line ← source.lines[index]?
      let stop := min offset source.length
      let width :=
        match source.slice? ⟨line.offset, stop⟩ with
        | some before => before.length
        | none => stop - line.offset
      return ⟨line.position.line, line.position.column + width⟩

def tokens (source : Source) : Reading TokenError (List Token) :=
  (scanFrom source.chars 0).mapError fun failure =>
    ⟨failure.problem, failure.offset, source.positionAt failure.offset⟩

def document (source : Source) : Reading TemplateError Document := do
  let tokens ← (tokens source).mapError fun error =>
    { cause := .token error.problem, position := error.position,
      excerpt := source.excerpt ⟨error.offset, source.length⟩, file := none }
  let draft ← .settled (tokens.foldlM (Document.Draft.step source) .empty)
  return ⟨draft.nodes⟩

theorem keep?_eq (number : Nat) (chars : List Char) :
    keep? number chars = some (Source.Line.keep? number chars) := by
  have whole : chars.takeWhile isBlank ++ trimStart chars = chars :=
    List.takeWhile_append_dropWhile
  have size : byteLength chars =
      byteLength (trimStart chars) + byteLength (chars.takeWhile isBlank) := by
    rw [Nat.add_comm, ← byteLength_append, whole]
  have leading : slice? chars 0 (byteLength (chars.takeWhile isBlank)) =
      some (chars.takeWhile isBlank) :=
    slice?_eq_some.mpr ⟨[], trimStart chars, whole.symm, rfl,
      (Nat.zero_add _).symm⟩
  unfold keep? Source.Line.keep?
  rw [size, minus?_add]
  simp only [Option.bind_eq_bind, Option.bind_some, leading]
  cases trim chars <;> rfl

theorem ofText_eq (raw : String) : ofText raw = some (Source.ofText raw) := by
  have kept : ((lines raw.toList).zipIdx 1).mapM
      (fun (chars, number) => keep? number chars) =
      some (((lines raw.toList).zipIdx 1).map
        fun (chars, number) => Source.Line.keep? number chars) := by
    simp only [keep?_eq]
    exact List.mapM_pure
  rw [ofText, kept]
  simp only [Option.bind_eq_bind, Option.bind_some, List.filterMap_map]
  rfl

theorem positionAt_eq (source : Source) (offset : Nat) :
    positionAt source offset = some (source.positionAt offset) := by
  unfold positionAt Source.positionAt
  have whole := List.takeWhile_append_dropWhile
    (p := fun line : LineStart => decide (line.offset ≤ offset))
      (l := source.lines)
  rcases List.eq_nil_or_concat
      (source.lines.takeWhile fun line => decide (line.offset ≤ offset)) with
    nothing | ⟨init, line, passed⟩
  · rw [nothing]
    rfl
  · rw [List.concat_eq_append] at passed
    have last : source.lines[init.length]? = some line := by
      rw [← whole, passed]
      simp
    rw [passed, List.length_append, List.getLast?_concat]
    simp only [List.length_singleton, last]
    rfl

theorem document_eq (source : Source) :
    document source = .settled (Document.parse source) := by
  have scanned : scanFrom source.chars 0 = .settled (Token.scan source.chars) :=
    scanFrom_eq (Cursor.stands_start source.chars)
  have read : tokens source = .settled source.tokens := by
    rw [tokens, scanned]
    rfl
  rw [document, read]
  apply Reading.bind_settled rfl
  intro tokens _
  apply Reading.bind_settled rfl
  intro draft _
  rfl

end Sources

section Catalogs

def definitions (file : TemplateFile) :
    Reading TemplateError (List Catalog.Definition) := do
  let source ← ofText file.text
  let document ← (document source).mapError fun error => error.inFile file.label
  return (document.select Directive.component.name).map fun element =>
    ⟨file.label, source, element⟩

def component (known : List String) (definition : Catalog.Definition) :
    Reading TemplateError (List Component × List Event) := do
  let (root, events) ← (build definition.source definition.element
    known).mapError
    fun error => error.inFile definition.file
  match root.kind with
  | .component name =>
      return ([⟨name, definition.file, root⟩],
        events ++ [.discoveredComponent definition.file name])
  | _ => return ([], events)

def catalog (files : List TemplateFile) :
    Reading TemplateError (Catalog × List Event) := do
  let definitions := (← files.mapM definitions).flatten
  let declared ← .settled (definitions.foldlM Catalog.Definition.declare [])
  let known := declared.map Catalog.Definition.name
  let built ← definitions.mapM (component known)
  return (⟨built.flatMap Prod.fst⟩, built.flatMap Prod.snd)

theorem definitions_eq (file : TemplateFile) :
    definitions file = .settled (Catalog.Definition.all file) := by
  rw [definitions, ofText_eq, Reading.lift_eq, Reading.settled_ok_bind,
    document_eq, Catalog.Definition.all]
  cases Document.parse (Source.ofText file.text) <;> rfl

theorem component_eq {document : Document} {definition : Catalog.Definition}
    (parsed : Document.parse definition.source = .ok document)
    (inDocument : definition.element ∈ document.descendants.map Prod.snd)
    (known : List String) :
    component known definition = .settled (definition.component known) := by
  rw [component, build_eq parsed inDocument, Catalog.Definition.component]
  rcases Construct.build definition.source definition.element known with _ |
    ⟨root, events⟩
  · rfl
  · change (match root.kind with | .component name => _ | _ => _) =
      Reading.settled _
    dsimp only
    cases root.kind <;> rfl

theorem catalog_eq (files : List TemplateFile) :
    catalog files = .settled (Catalog.parse files) := by
  apply Reading.bind_settled
    (Reading.mapM_settled fun file _ => definitions_eq file)
  intro found all
  apply Reading.bind_settled rfl
  intro declared _
  refine Reading.bind_settled (Reading.mapM_settled ?_) ?_
  · intro definition listed
    obtain ⟨batch, inFound, inFile⟩ := List.mem_flatten.mp listed
    obtain ⟨file, _, defines⟩ :=
      (Except.forall₂_of_mapM all).exists_of_mem_right inFound
    obtain ⟨document, read, defined⟩ := Catalog.Definition.all_ok defines
    obtain ⟨_, source, element⟩ := defined definition inFile
    rw [← source] at read
    exact component_eq read element _
  · intro built _
    rfl

theorem weaves_of_parse {files : List TemplateFile} {catalog : Catalog}
    {events : List Event} (parsed : Catalog.parse files = .ok (catalog, events))
    {component : Component} (member : component ∈ catalog.components) :
    ∀ construct ∈ component.root.walk, Weaves construct := by
  intro construct inside
  obtain ⟨file, _, _, _, _, _, made, enclosed⟩ :=
    Catalog.exists_builtFrom parsed member inside
  exact ⟨Source.ofText file.text, made.html,
    fun calls plain called => made.woven plain enclosed called⟩

end Catalogs

section Functions

def function (signatures : Signatures) (component : Component) :
    Reading GenerationError (GeneratedFunction × List Event) := do
  let declaration ← (ofConstruct signatures component.root).mapError
    fun error => error.inComponent component.name
  let parameters := (signatures.get? component.name).getD []
  let below ← minus? component.root.walk.length 1
  return (⟨component.name, parameters, declaration.code⟩,
    declaration.allEvents ++
      [.generatedFunction component.name parameters.length below])

def functions (catalog : Catalog) :
    Reading GenerationError (List GeneratedFunction × List Event) := do
  let signatures ← .settled (Signatures.ofCatalog catalog)
  let generated ← catalog.components.mapM (function signatures)
  return (generated.map Prod.fst,
    signatures.events ++ generated.flatMap Prod.snd)

def generate (files : List TemplateFile) (package : String) :
    Reading GenerationError String := do
  let (catalog, _) ← (catalog files).mapError .ofTemplate
  let (functions, _) ← functions catalog
  return Emit.file package (functions.map GeneratedFunction.code)

theorem function_eq (signatures : Signatures) (component : Component)
    (weaves : ∀ construct ∈ component.root.walk, Weaves construct) :
    function signatures component =
      .settled (GeneratedFunction.ofComponent signatures component) := by
  rw [function, ofConstruct_eq signatures component.root weaves,
    Construct.length_walk, minus?_add, GeneratedFunction.ofComponent]
  cases Declaration.ofConstruct signatures component.root <;> rfl

theorem functions_eq (catalog : Catalog)
    (weaves : ∀ component ∈ catalog.components,
      ∀ construct ∈ component.root.walk,
      Weaves construct) :
    functions catalog = .settled catalog.functions := by
  apply Reading.bind_settled rfl
  intro signatures _
  refine Reading.bind_settled (Reading.mapM_settled ?_) ?_
  · intro component member
    exact function_eq signatures component (weaves component member)
  · intro generated _
    rfl

/-- Whatever the files are, no check fails on the way to the generated text, and
the outcome is the text or the error that there is without the checks. Nor does
one fail where the line of an offset is looked up. -/
theorem generate_in_bounds :
    (∀ files package, (generate files package).run =
      some (Stencil.generate files package)) ∧
      ∀ source offset, positionAt source offset =
        some (source.positionAt offset) := by
  refine ⟨?_, positionAt_eq⟩
  intro files package
  rw [generate, catalog_eq, Stencil.generate]
  cases parsed : Catalog.parse files with
  | error failure => rfl
  | ok result =>
      obtain ⟨catalog, events⟩ := result
      have written : functions catalog = .settled catalog.functions :=
        functions_eq catalog fun component member =>
          weaves_of_parse parsed member
      rw [Reading.mapError_settled]
      change (functions catalog >>= _).run = some (catalog.render package)
      rw [written, Catalog.render]
      cases catalog.functions <;> rfl

end Functions

end Stencil.Checked
