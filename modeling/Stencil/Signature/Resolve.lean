import Stencil.Catalog
import Stencil.Signature.Occurrence

namespace Stencil.Signatures

/-! The signatures of a catalog. A component is derived behind those it calls,
except where it is called by them in turn. -/

def others (available : List Component) (name : String) : List Component :=
  available.filter fun candidate => candidate.name != name

theorem length_others_lt {available : List Component} {name : String}
    {component : Component}
    (found : available.find? (fun candidate => candidate.name == name) =
      some component) :
    (others available name).length < available.length := by
  refine List.length_filter_lt_length_iff_exists.mpr
    ⟨component, List.mem_of_find?_eq_some found, ?_⟩
  have named := List.find?_some found
  simp_all

/-- Adds the signature of a component behind those of the components it calls,
given the ones that are not being derived already. -/
def extend (available : List Component) (name : String)
    (signatures : Signatures) :
    Except GenerationError Signatures :=
  if (signatures.get? name).isSome then .ok signatures
  else
    match _found : available.find? fun candidate => candidate.name == name with
    | none => .ok signatures
    | some component => do
        let callees ← component.root.targets.foldlM
          (fun derived target => extend (others available name) target derived)
            signatures
        match Parameter.ofConstruct callees component.root with
        | .error error => .error (error.inComponent component.name)
        | .ok parameters => .ok (callees.insert ⟨component.name, parameters⟩)
termination_by available.length
decreasing_by
  exact length_others_lt _found

def ofCatalog (catalog : Catalog) : Except GenerationError Signatures :=
  catalog.names.foldlM
    (fun derived name => extend catalog.components name derived) empty

def events (signatures : Signatures) : List Event :=
  signatures.entries.map fun entry =>
    .derivedSignature entry.component entry.parameters.length

end Stencil.Signatures
