import Stencil.Construct.Build

namespace Stencil

/-! The components of a build, from all its files. -/

structure TemplateFile where
  label : String
  text : String
  deriving DecidableEq, Repr

structure Component where
  name : String
  file : String
  root : Construct

structure Catalog where
  components : List Component

namespace Catalog

def names (catalog : Catalog) : List String :=
  catalog.components.map Component.name

def get? (catalog : Catalog) (name : String) : Option Component :=
  catalog.components.find? fun component => component.name == name

structure Definition where
  file : String
  source : Source
  element : Element

namespace Definition

def name (definition : Definition) : String :=
  (Construct.declaredName? definition.element).getD ""

def all (file : TemplateFile) : Except TemplateError (List Definition) :=
  let source := Source.ofText file.text
  match Document.parse source with
  | .error error => .error (error.inFile file.label)
  | .ok document =>
      .ok ((document.select Directive.component.name).map fun element =>
        ⟨file.label, source, element⟩)

def declare (earlier : List Definition) (definition : Definition) :
    Except TemplateError (List Definition) :=
  match earlier.find? fun candidate => candidate.name == definition.name with
  | none => .ok (earlier ++ [definition])
  | some first =>
      .error ((definition.source.error definition.element.tagSpan
        (.duplicateComponent definition.name first.file)).inFile
          definition.file)

def component (known : List String) (definition : Definition) :
    Except TemplateError (List Component × List Event) :=
  match Construct.build definition.source definition.element known with
  | .error error => .error (error.inFile definition.file)
  | .ok (root, events) =>
      match root.kind with
      | .component name =>
          .ok ([⟨name, definition.file, root⟩],
            events ++ [.discoveredComponent definition.file name])
      | _ => .ok ([], events)

end Definition

/-- Reads the components of some files. The names of all files are known before
any component is read, so a component may call one that comes later. -/
def parse (files : List TemplateFile) :
    Except TemplateError (Catalog × List Event) := do
  let definitions := (← files.mapM Definition.all).flatten
  let declared ← definitions.foldlM Definition.declare []
  let known := declared.map Definition.name
  let built ← definitions.mapM (Definition.component known)
  return (⟨built.flatMap Prod.fst⟩, built.flatMap Prod.snd)

end Catalog

end Stencil
