import SemanticNullability.Name
import SemanticNullability.Schema
/-!
# The schema of a document

`Schema.ofDocument` registers the definitions of a document in their order, merges every extension
into the type that it extends, wherever the two stand, and finds the root types: in the schema
block, or else among the objects that bear the conventional names. A name may be defined once, and
an extension needs a definition of its own kind.
-/
namespace SemanticNullability

/-- What can be defined twice. -/
inductive DefinitionKind where
  | schema | type | directive
  deriving DecidableEq, Inhabited

def DefinitionKind.text : DefinitionKind → String
  | schema => "schema"
  | type => "type"
  | directive => "directive"

/-- Why a document has no schema. -/
inductive DocumentError where
  | duplicate (kind : DefinitionKind) (name : String)
  | extendsUndefined (name : String)
  | extendsOtherKind (name : String)
  deriving DecidableEq, Inhabited

def DocumentError.message : DocumentError → String
  | duplicate kind name => "duplicate " ++ kind.text ++ " definition: " ++ name
  | extendsUndefined name => "cannot extend " ++ name ++ ": type is not defined"
  | extendsOtherKind name => "cannot extend " ++ name ++ ": type is a different kind"

/-- Whether a directive is `@semanticNonNull`. -/
def Directive.isSemantic (d : Directive) : Bool := d.name == semanticNonNullName

/-- Reads a written field: its first `@semanticNonNull` gives the levels, and none of them stays
among the directives. This is `convert_field` as it is called on loading. -/
def Field.ofWritten (f : WrittenField) : Field where
  name := f.name
  description := f.description
  arguments := f.arguments
  type := TypeExpr.ofWritten f.type
  directives := f.directives.filter fun d => !d.isSemantic
  semantic := (f.directives.find? Directive.isSemantic).map Levels.ofDirective

/-- What has been read of a document, extensions aside. -/
structure Definitions where
  types : Registry (TypeDefinition Field)
  directives : Registry DirectiveDefinition
  block : Option SchemaBlock

namespace Definitions

def empty : Definitions := ⟨∅, ∅, none⟩

/-- Reads one more definition, which must not repeat an earlier one; one turn of the loop of
`build_schema`. -/
def add (d : Definitions) : Definition → Except DocumentError Definitions
  | .schema block =>
    if d.block.isSome then .error (.duplicate .schema "schema")
    else .ok { d with block := some block }
  | .type definition =>
    if d.types.contains definition.name then .error (.duplicate .type definition.name)
    else .ok { d with
      types := d.types.insert definition.name (definition.mapFields Field.ofWritten) }
  | .directive definition =>
    if d.directives.contains definition.name then .error (.duplicate .directive definition.name)
    else .ok { d with directives := d.directives.insert definition.name definition }
  | .extend _ => .ok d

def ofDocument (document : Document) : Except DocumentError Definitions :=
  document.foldlM add empty

end Definitions

/-- The extension that a definition is. -/
def Definition.extension? : Definition → Option (TypeDefinition WrittenField)
  | .extend e => some e
  | _ => none

/-- Merges an extension into the type that it extends (`apply_extension`). -/
def extendType (types : Registry (TypeDefinition Field)) (extension : TypeDefinition WrittenField) :
    Except DocumentError (Registry (TypeDefinition Field)) :=
  match types.find? extension.name with
  | none => .error (.extendsUndefined extension.name)
  | some definition =>
    match definition.append? (extension.mapFields Field.ofWritten) with
    | none => .error (.extendsOtherKind extension.name)
    | some merged => .ok (types.insert extension.name merged)

namespace Schema

/-- The root types by convention: the objects that bear the conventional names. -/
def conventionalRoots (s : Schema) : Roots :=
  Roots.ofFn fun op => if s.hasObject op.typeName then some op.typeName else none

/-- The schema with the roots and directives that the schema block gives, if there is one. -/
def withBlock (s : Schema) : Option SchemaBlock → Schema
  | some block => { s with roots := block.roots, directives := block.directives }
  | none => { s with roots := s.conventionalRoots }

/-- The schema of a document (`build_schema`). -/
def ofDocument (document : Document) : Except DocumentError Schema := do
  let definitions ← Definitions.ofDocument document
  let types ← (document.filterMap Definition.extension?).foldlM extendType definitions.types
  return withBlock ⟨Roots.none, [], types, definitions.directives⟩ definitions.block

end Schema

end SemanticNullability
