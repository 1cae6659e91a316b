import Stencil.Proofs.Contraction
import Stencil.Proofs.Parameters
import Stencil.Proofs.Values

namespace Stencil

open Text

/-! The names that markers declare are identifiers, wherever the markers
stand. -/

theorem Text.spelled_of_isIdentifier {name : String}
    (identifier : isIdentifier name) :
    name.toList.all isIdentifierPart := by
  unfold isIdentifier spellsIdentifier at identifier
  split at identifier
  · cases identifier
  · rename_i first rest spelled
    obtain ⟨begins, follows⟩ := Bool.and_eq_true_iff.mp identifier
    have part : isIdentifierPart first := by
      unfold isIdentifierStart at begins
      unfold isIdentifierPart Char.isAlphanum
      rcases Bool.or_eq_true_iff.mp begins with letter | underscore
      · rw [letter, Bool.true_or, Bool.true_or]
      · rw [underscore, Bool.or_true]
    rw [spelled, List.all_cons, part, follows, Bool.true_and]

namespace Rune

theorem spells_of_quotedIdentifier? {chars name : List Char}
    (read : quotedIdentifier? chars = some name) : spellsIdentifier name := by
  unfold quotedIdentifier? at read
  split at read
  · cases read
  · split at read
    · rename_i fits
      obtain rfl := Option.some.inj read
      simp only [Bool.and_eq_true] at fits
      exact fits.2
    · cases read

theorem isIdentifier_of_read? {location : Location} {cursor next : Cursor}
    {rune : Rune} (read : read? location cursor = .ok (some (rune, next)))
    (declares : rune.kind.declares) :
    isIdentifier rune.value := by
  unfold read? at read
  dsimp only at read
  split at read
  · cases read
  · split at read
    · cases read
    · split at read
      · cases read
      · rename_i value given
        split at read
        · cases read
        · obtain ⟨rfl, _⟩ := Prod.mk.inj (Option.some.inj (Except.ok.inj read))
          rw [Kind.value?, if_pos declares] at given
          rw [isIdentifier, String.toList_ofList]
          exact spells_of_quotedIdentifier? given

end Rune

namespace Marker

/-- What the marker declares, if it declares something, is an identifier. -/
def WellNamed (marker : Marker) : Prop :=
  ∀ name, marker.declared? = some name → isIdentifier name

theorem wellNamed_of_read? {location : Location} {cursor next : Cursor}
    {marker : Marker}
    (read : read? location cursor = .ok (some (marker, next))) :
    marker.WellNamed := by
  unfold read? at read
  intro name declared
  split at read
  · obtain ⟨⟨inner, after⟩, _, same⟩ := Except.map_eq_ok.mp read
    obtain ⟨rfl, rfl⟩ := Prod.mk.inj (Option.some.inj same)
    obtain ⟨bare, rfl⟩ : inner.isBare ∧ inner.value = name := by
      simpa [declared?] using declared
    exact bare
  · obtain ⟨found, ran, mapped⟩ := Except.map_eq_ok.mp read
    obtain ⟨⟨inner, after⟩, rfl, same⟩ := Option.map_eq_some_iff.mp mapped
    obtain ⟨rfl, rfl⟩ := Prod.mk.inj same
    obtain ⟨declares, rfl⟩ : inner.kind.declares ∧ inner.value = name := by
      simpa [declared?] using declared
    exact Rune.isIdentifier_of_read? ran declares

theorem forall_markers_of_scan {P : Marker → Prop}
    (each : ∀ {location cursor next marker},
      read? location cursor = .ok (some (marker, next)) → P marker)
    {context : Context} {cursor : Cursor} {marked : MarkedText}
    (scanned : scan context cursor = .ok marked) :
    ∀ marker ∈ marked.markers, P marker := by
  fun_induction scan context cursor generalizing marked with
  | case1 context cursor done =>
      cases scanned
      exact List.forall_mem_nil _
  | case2 => cases scanned
  | case3 context cursor char rest behind marker next read induction =>
      obtain ⟨inner, ran, rfl⟩ := Except.map_eq_ok.mp scanned
      exact List.forall_mem_cons.mpr ⟨each read, induction ran⟩
  | case4 context cursor char rest behind read induction =>
      obtain ⟨inner, ran, rfl⟩ := Except.map_eq_ok.mp scanned
      have kept := induction ran
      exact kept

theorem wellNamed_of_scan {context : Context} {cursor : Cursor}
    {marked : MarkedText} (scanned : scan context cursor = .ok marked) :
    ∀ marker ∈ marked.markers, marker.WellNamed :=
  forall_markers_of_scan wellNamed_of_read? scanned

end Marker

namespace Construct

variable {scope : Scope} {element : Element} {construct : Construct}

theorem BuiltFrom.markers_wellNamed
    (built : BuiltFrom scope element construct) :
    ∀ marker ∈ construct.markers, marker.WellNamed := by
  intro marker member
  obtain ⟨run, listed, inside⟩ := List.mem_flatMap.mp member
  obtain ⟨gap, _, read⟩ := built.runs_marked run listed
  obtain ⟨chars, _, scanned⟩ := Source.marked_ok read
  exact Marker.wellNamed_of_scan scanned marker inside

theorem BuiltFrom.arguments_wellNamed
    (built : BuiltFrom scope element construct) {target : String}
    {arguments : List Argument}
    (kind : construct.kind = .placeholder target arguments) :
    ∀ argument ∈ arguments, ∀ marker ∈ argument.value.markers,
      marker.WellNamed := by
  intro argument listed marker member
  obtain ⟨attr, _, read⟩ := (Except.forall₂_of_mapM
    (built.arguments_of_placeholder kind)).exists_of_mem_right listed
  obtain ⟨value, spelled, rfl⟩ := Except.map_eq_ok.mp read
  unfold AttributeValue.read at spelled
  split at spelled
  · obtain rfl := Except.ok.inj spelled
    cases member
  · split at spelled
    · obtain rfl := Except.ok.inj spelled
      cases member
    · obtain ⟨marked, cut, rfl⟩ := Except.map_eq_ok.mp spelled
      exact Marker.wellNamed_of_scan (Except.mapError_eq_ok.mp cut) marker
        (AttributeValue.markers_ofMarked ▸ member)

end Construct

end Stencil
