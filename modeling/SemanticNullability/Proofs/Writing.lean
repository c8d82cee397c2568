import SemanticNullability.Schema.ToDocument
import SemanticNullability.Loading
import SemanticNullability.Proofs.TypeDefinition
/-!
# What can be written

A field can be written when it carries neither levels nor a semantic marker: `Field.IsResolved`. A
schema of such fields has a document, and `Schema.document` spells it out: the block, the directive
definitions and the types, each with its fields as they are written (`toDocument_eq`).
-/
namespace SemanticNullability

namespace TypeExpr

/-- The type as SDL writes it (`type_ref_to_ast`). A semantic marker is written like an enforced
wrapper, so this is of use for types without markers only. -/
def written : TypeExpr → WrittenType
  | named name => .named name
  | list item => .list item.written
  | nonNull inner => .nonNull inner.written
  | semanticNonNull inner => .nonNull inner.written

theorem written?_eq_some_written {t : TypeExpr} (h : t.hasMarker = false) :
    t.written? = some t.written := by
  induction t with
  | named name => rfl
  | list item ih => rw [written?, ih h, written, Option.map_some]
  | nonNull inner ih => rw [written?, ih h, written, Option.map_some]
  | semanticNonNull inner => cases h

theorem ofWritten_written {t : TypeExpr} (h : t.hasMarker = false) : ofWritten t.written = t :=
  written?_eq_some_iff.1 (written?_eq_some_written h)

end TypeExpr

/-- A field without levels and without semantic markers. -/
structure Field.IsResolved (f : Field) : Prop where
  unannotated : f.semantic = none
  unmarked : f.type.hasMarker = false

/-- The field as a document writes it. -/
def Field.written (f : Field) : WrittenField :=
  ⟨f.name, f.description, f.arguments, f.type.written, f.directives⟩

theorem Field.toWritten_eq {f : Field} (h : f.IsResolved) (owner : String) :
    f.toWritten owner = .ok f.written := by
  rw [Field.toWritten, h.unannotated, TypeExpr.written?_eq_some_written h.unmarked]
  rfl

namespace Schema

def IsResolved (s : Schema) : Prop := ∀ e ∈ s.types.entries, ∀ f ∈ e.2.fields, f.IsResolved

/-- The document of a schema whose fields can all be written. -/
def document (s : Schema) : Document :=
  s.block?.toList.map Definition.schema ++
    s.directiveDefinitions.values.map Definition.directive ++
    s.types.values.map fun d => Definition.type (d.mapFields Field.written)

/-- **A resolved schema has a document.** -/
theorem toDocument_eq {s : Schema} (h : s.IsResolved) : s.toDocument = .ok s.document := by
  have htypes : replaceEach (TypeDefinition.mapFieldsM Field.toWritten) s.types.values =
      .ok (s.types.values.map (TypeDefinition.mapFields Field.written)) := by
    refine replaceEach_eq_map fun d hd => ?_
    obtain ⟨e, he, rfl⟩ := List.mem_map.1 hd
    exact TypeDefinition.mapFieldsM_eq_mapFields fun f hf owner =>
      Field.toWritten_eq (h e he f hf) owner
  rw [toDocument, htypes]
  show Except.ok _ = Except.ok _
  rw [document, List.map_map]
  rfl

theorem text_eq {s : Schema} (h : s.IsResolved) : s.text = .ok (endLine s.document.text) := by
  rw [text, toDocument_eq h]
  rfl

end Schema

end SemanticNullability
