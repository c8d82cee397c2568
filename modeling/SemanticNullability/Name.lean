/-!
# Names with a fixed meaning

GraphQL reserves names that begin with two underscores for introspection, and five scalar types
need no definition. The directive `@semanticNonNull` is the one whose applications are read as
levels of a field.
-/
namespace SemanticNullability

/-- The directive that marks positions of a field as semantically non-null. -/
def semanticNonNullName : String := "semanticNonNull"

/-- Names that begin with two underscores belong to introspection (`is_introspection_name`). -/
def isIntrospectionName (name : String) : Bool := ['_', '_'].isPrefixOf name.toList

/-- The scalar types that every schema may use without defining them. -/
def builtinScalars : List String := ["Int", "Float", "String", "Boolean", "ID"]

def isBuiltinScalar (name : String) : Bool := builtinScalars.contains name

theorem isBuiltinScalar_iff {name : String} :
    isBuiltinScalar name = true ↔ name ∈ builtinScalars := by
  simp [isBuiltinScalar]

end SemanticNullability
