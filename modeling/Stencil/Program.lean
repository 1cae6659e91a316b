import Stencil.Declaration
import Stencil.Emit.Package
import Stencil.Signature.Resolve

namespace Stencil

/-! The functions of a build. -/

structure GeneratedFunction where
  name : String
  parameters : List Parameter
  code : String
  deriving DecidableEq, Repr

namespace GeneratedFunction

def ofComponent (signatures : Signatures) (component : Component)
    (convert : Conversion := Parameter.convert) :
    Except GenerationError (GeneratedFunction × List Event) :=
  match Declaration.ofConstruct signatures component.root convert with
  | .error error => .error (error.inComponent component.name)
  | .ok declaration =>
      let parameters := (signatures.get? component.name).getD []
      .ok (⟨component.name, parameters, declaration.code⟩,
        declaration.allEvents ++
          [.generatedFunction component.name parameters.length
            (Construct.forestSize component.root.children)])

end GeneratedFunction

namespace Catalog

def functions (catalog : Catalog)
    (convert : Conversion := Parameter.convert) :
    Except GenerationError (List GeneratedFunction × List Event) := do
  let signatures ← Signatures.ofCatalog catalog
  let generated ← catalog.components.mapM
    (GeneratedFunction.ofComponent signatures · convert)
  return (generated.map Prod.fst,
    signatures.events ++ generated.flatMap Prod.snd)

def render (catalog : Catalog) (package : String) :
    Except GenerationError String :=
  catalog.functions.map fun (functions, _) =>
    Emit.file package (functions.map GeneratedFunction.code)

end Catalog

def generate (files : List TemplateFile) (package : String) :
    Except GenerationError String :=
  match Catalog.parse files with
  | .error error => .error (.ofTemplate error)
  | .ok (catalog, _) => catalog.render package

end Stencil
