import ProgramGraph.Proofs.Validity.Accepted
import ProgramGraph.Proofs.Validity.Closure

/-! The verdict on a data tree that has the shape of a document. -/
namespace ProgramGraph

open Shape

namespace Graph

instance (d : Document) : Decidable d.WellFormed :=
  decidable_of_iff (d.defects = []) Document.defects_eq_nil_iff

theorem isValid_iff_defects {j : Json} {d : Document} (h : Document.schema (some j) = .ok d) :
    (validate j).isValid = true ↔ d.defects = [] := by
  constructor
  · intro hvalid
    by_contra hd
    unfold validate at hvalid
    rw [h] at hvalid
    dsimp only at hvalid
    split at hvalid
    · exact hd ‹_›
    · cases hvalid
  · intro hd
    rw [validate_of_defects_eq_nil h hd]
    rfl

/-- A document of the right shape is valid if and only if it is well formed. It is then returned as
it is: it is written as the tree that it was read from, up to the order of members, and what is
written gets the same verdict. -/
theorem validate_isValid_iff {j : Json} {d : Document} (h : Document.schema (some j) = .ok d) :
    ((validate j).isValid = true ↔ d.WellFormed) ∧
      ((validate j).isValid = true → (validate j).document = some d) ∧
      d.toJson.Agrees j ∧ validate d.toJson = validate j := by
  obtain ⟨hfits, t, ht, hagrees⟩ := Document.schema_reads _ d h
  obtain rfl := Option.some.inj ht
  have hagain : validate d.toJson = validate j := by
    unfold validate
    rw [h, Document.schema_toJson hfits]
  refine ⟨(isValid_iff_defects h).trans Document.defects_eq_nil_iff, ?_, hagrees, hagain⟩
  intro hvalid
  rw [validate_of_defects_eq_nil h ((isValid_iff_defects h).mp hvalid)]

/-- A container that assigns a variable, with the members of its tree in another order. -/
theorem validate_isValid_iff_sample :
    ∃ j d, Document.schema (some j) = .ok d ∧ d.WellFormed ∧ (validate j).isValid = true ∧
      (validate j).document = some d ∧ d.toJson.Agrees j ∧ validate d.toJson = validate j := by
  let assign : Function := .assign "f__assign__x_0" "x" [] (.literal .integer "1")
  let container : Function :=
    .container "f" [] [⟨"x", .integer⟩] [.value "f__assign__x_0" ⟨"x", 0⟩ []]
  let d : Document := ⟨"f", "m", "2024-01-01", [assign, container], [.call "g" []]⟩
  let j : Json := .object [("name", .string "m"), ("start", .string "f"),
    ("body", .array [(Record.call "g" []).toJson]), ("dateCreated", .string "2024-01-01"),
    ("functions", .array [assign.toJson, container.toJson])]
  have hschema : Document.schema (some j) = .ok d :=
    Checked.toOption_eq_some.mp (by decide +kernel)
  obtain ⟨hiff, hdocument, hagrees, hagain⟩ := validate_isValid_iff hschema
  have hformed : d.WellFormed := by decide +kernel
  have hvalid := hiff.mpr hformed
  exact ⟨j, d, hschema, hformed, hvalid, hdocument hvalid, hagrees, hagain⟩

end Graph
end ProgramGraph
