import SemanticNullability.Name
import SemanticNullability.Schema
/-!
# Assembly of a converted schema

Converted definitions come in the order in which they were reached. `Schema.assemble` puts them
back into the order of the source, what the source does not register behind, and leaves out what
belongs to introspection. All else is taken from the source, except the definition of
`@semanticNonNull`, which a converted schema does not need.
-/
namespace SemanticNullability

/-- Moves the definitions of the listed names, one after the other, to the end of `done`; gives what
is left and what is done. This is the loop of `assemble`. -/
def Registry.moveAll {α : Type} :
    List String → Registry α → Registry α → Registry α × Registry α
  | [], left, done => (left, done)
  | key :: keys, left, done =>
    match left.find? key with
    | some value => moveAll keys (left.erase key) (done.insert key value)
    | none => moveAll keys left done

/-- The source with converted definitions in the place of its own (`assemble`). -/
def Schema.assemble (source : Schema) (converted : Registry (TypeDefinition Field)) : Schema :=
  let (left, done) := Registry.moveAll source.types.keys converted ∅
  { source with
    types := (done.insertAll left).filterKeys fun name => !isIntrospectionName name
    directiveDefinitions := source.directiveDefinitions.erase semanticNonNullName }

end SemanticNullability
