import SemanticNullability.Loading
import SemanticNullability.Proofs.Extension
import SemanticNullability.Proofs.Reading
/-!
# Loaded schemas

What holds of every schema that comes from a document, and so of every schema that is loaded from a
text: definitions are registered under their own names, and no field keeps a `@semanticNonNull`
among its directives, be it written in a definition or in an extension.
-/
namespace SemanticNullability

theorem Field.isLifted_ofWritten (w : WrittenField) : (Field.ofWritten w).IsLifted := by
  intro d hd
  have hkept := (List.mem_filter.1 hd).2
  simpa using hkept

namespace Schema

/-- A text with a schema is a document with that schema. -/
theorem ofText_eq_ok_iff {text : String} {s : Schema} :
    ofText text = .ok s ↔
      ∃ document, Document.ofText? text = some document ∧ ofDocument document = .ok s := by
  rw [ofText]
  cases hparse : Document.ofText? text with
  | none => simp
  | some document =>
    cases hdoc : ofDocument document with
    | error e => simp [hdoc]
    | ok schema => simp [hdoc]

/-- Whether a text has a schema that passes a test. -/
def textPasses (text : String) (test : Schema → Bool) : Bool :=
  match ofText text with
  | .ok s => test s
  | .error _ => false

theorem exists_of_textPasses {text : String} {test : Schema → Bool}
    (h : textPasses text test = true) : ∃ s, ofText text = .ok s ∧ test s = true := by
  rw [textPasses] at h
  cases hload : ofText text with
  | error e =>
    rw [hload] at h
    cases h
  | ok s =>
    rw [hload] at h
    exact ⟨s, rfl, h⟩

theorem isNamed_ofDocument {document : Document} {s : Schema} (h : ofDocument document = .ok s) :
    s.IsNamed := by
  obtain ⟨block, _, _, htypes, hdirectives, _⟩ := ofDocument_eq_ok h
  refine ⟨fun e he => ?_, fun e he => ?_⟩
  · rw [htypes] at he
    obtain ⟨d, _, rfl⟩ := List.mem_map.1 he
    exact (TypeDefinition.name_mapFields _ d).symm
  · rw [hdirectives] at he
    obtain ⟨d, _, rfl⟩ := List.mem_map.1 he
    rfl

/-- A field of a loaded schema stands in a definition or in an extension, which are read alike. -/
theorem exists_written_of_mem_fields {document : Document} {s : Schema}
    (h : ofDocument document = .ok s) {e : String × TypeDefinition Field} (he : e ∈ s.types.entries)
    {f : Field} (hf : f ∈ e.2.fields) :
    ∃ d ∈ document.types ++ document.filterMap Definition.extension?,
      ∃ w ∈ d.fields, f = Field.ofWritten w := by
  obtain ⟨block, -, -, htypes, -, -⟩ := ofDocument_eq_ok h
  rw [htypes] at he
  obtain ⟨extended, hextended, rfl⟩ := List.mem_map.1 he
  obtain ⟨d, hd, rfl⟩ := List.mem_map.1 hextended
  rw [TypeDefinition.fields_mapFields] at hf
  obtain ⟨w, hw, rfl⟩ := List.mem_map.1 hf
  rcases TypeDefinition.mem_fields_withParts hw with hw | ⟨e, he, hw⟩
  · exact ⟨d, List.mem_append_left _ hd, w, hw, rfl⟩
  · exact ⟨e, List.mem_append_right _ (List.mem_of_mem_filter he), w, hw, rfl⟩

theorem isLifted_ofDocument {document : Document} {s : Schema} (h : ofDocument document = .ok s) :
    s.IsLifted := by
  intro e he f hf
  obtain ⟨-, -, w, -, rfl⟩ := exists_written_of_mem_fields h he hf
  exact Field.isLifted_ofWritten w

end Schema

end SemanticNullability
