import Stencil.Proofs.Linking

namespace Stencil

/-! Compilation reads the values of attributes through the conversions of the
parameters that it knows, and through nothing else. -/

namespace Conversion

variable {convert : Conversion} {signatures : Signatures}

/-- The conversion is that of the parameters, wherever one of them can be
asked. -/
def Agrees (convert : Conversion) (signatures : Signatures) : Prop :=
  ∀ entry ∈ signatures.entries, ∀ parameter ∈ entry.parameters, ∀ value,
    convert parameter value = parameter.convert value

theorem addArgument_eq {parameters : List Parameter}
    (agrees : ∀ parameter ∈ parameters, ∀ value,
      convert parameter value = parameter.convert value)
    (target html : String) (draft : Call.Draft) (argument : Argument) :
    draft.addArgument target html parameters argument convert =
      draft.addArgument target html parameters argument := by
  unfold Call.Draft.addArgument
  cases found : Parameter.find? parameters argument.name with
  | none => rfl
  | some parameter =>
      simp only [agrees parameter (Parameter.mem_of_find? found)]

theorem link_eq (agrees : convert.Agrees signatures) (target html : String)
    (arguments : List Argument) (slots : List SlotArgument) :
    Call.link signatures target html arguments slots convert =
      Call.link signatures target html arguments slots := by
  unfold Call.link
  cases known : signatures.get? target with
  | none => rfl
  | some parameters =>
      simp only [addArgument_eq (agrees _ (Signatures.mem_of_get? known))]

theorem content_eq (agrees : convert.Agrees signatures)
    (construct : Construct) (builder : String) (inner : List Declaration) :
    Declaration.content signatures construct builder inner convert =
      Declaration.content signatures construct builder inner := by
  unfold Declaration.content
  simp only [link_eq agrees]

mutual
theorem ofConstruct_eq (agrees : convert.Agrees signatures)
    (construct : Construct) :
    Declaration.ofConstruct signatures construct convert =
      Declaration.ofConstruct signatures construct := by
  obtain ⟨kind, id, span, html, runs, children⟩ := construct
  rw [Declaration.ofConstruct, Declaration.ofConstruct,
    ofConstructs_eq agrees children]
  simp only [content_eq agrees]

theorem ofConstructs_eq (agrees : convert.Agrees signatures)
    (constructs : List Construct) :
    Declaration.ofConstructs signatures constructs convert =
      Declaration.ofConstructs signatures constructs := by
  cases constructs with
  | nil => rw [Declaration.ofConstructs, Declaration.ofConstructs]
  | cons construct rest =>
      rw [Declaration.ofConstructs, Declaration.ofConstructs,
        ofConstruct_eq agrees construct, ofConstructs_eq agrees rest]
end

theorem ofComponent_eq (agrees : convert.Agrees signatures)
    (component : Component) :
    GeneratedFunction.ofComponent signatures component convert =
      GeneratedFunction.ofComponent signatures component := by
  unfold GeneratedFunction.ofComponent
  rw [ofConstruct_eq agrees]

theorem functions_eq {catalog : Catalog}
    (derived : Signatures.ofCatalog catalog = .ok signatures)
    (agrees : convert.Agrees signatures) :
    catalog.functions convert = catalog.functions := by
  unfold Catalog.functions
  rw [derived]
  simp only [bind, Except.bind, ofComponent_eq agrees]

end Conversion

end Stencil
