import SemanticNullability.Schema
/-!
# The document of a schema

`Schema.toDocument` writes the schema block, if it is needed, then the directive definitions and
the types. SDL has no way to write a semantic marker, so a schema that still has one, or still has
the levels of a directive, has no document.
-/
namespace SemanticNullability

/-- A field whose semantic marks have not been converted, so that it cannot be written. -/
structure UnresolvedField where
  type : String
  field : String
  deriving DecidableEq, Inhabited

def UnresolvedField.message (u : UnresolvedField) : String :=
  "semantic non-null marker cannot be printed at " ++ u.type ++ "." ++ u.field ++
    "; convert the schema first"

/-- Writes a field of the type `owner` (`field_to_ast`). -/
def Field.toWritten (owner : String) (f : Field) : Except UnresolvedField WrittenField :=
  if f.semantic.isSome then .error ⟨owner, f.name⟩
  else
    match f.type.written? with
    | none => .error ⟨owner, f.name⟩
    | some type => .ok ⟨f.name, f.description, f.arguments, type, f.directives⟩

namespace Schema

/-- Whether the root type of an operation differs from the one that a reader would assume. -/
def hasUnusualRoot (s : Schema) (op : Operation) : Bool :=
  match s.roots.get? op with
  | some name => name != op.typeName
  | none => s.hasObject op.typeName

/-- Whether the schema block has something to say (`needs_schema_block`). -/
def needsBlock (s : Schema) : Bool :=
  !s.directives.isEmpty || Operation.all.any s.hasUnusualRoot

/-- The schema block, if it is needed. -/
def block? (s : Schema) : Option SchemaBlock :=
  if s.needsBlock then some ⟨s.directives, s.roots⟩ else none

/-- The document of a schema, unless a field stands in the way; the error names the first
(`to_document`). -/
def toDocument (s : Schema) : Except UnresolvedField Document := do
  let types ← replaceEach (TypeDefinition.mapFieldsM Field.toWritten) s.types.values
  return s.block?.toList.map Definition.schema ++
    s.directiveDefinitions.values.map Definition.directive ++ types.map Definition.type

end Schema

end SemanticNullability
