import SemanticNullability.Document
import SemanticNullability.Levels
import SemanticNullability.Registry
/-!
# Schemas

A schema is a registry of named types, the root types of the operations, the directives of the
schema itself and the directive definitions. Types refer to each other by name, so a cycle of
references is nothing special. A field that carries a `@semanticNonNull` directive holds its levels
apart from the other directives.
-/
namespace SemanticNullability

structure Field where
  name : String
  description : Option String
  arguments : List InputValue
  type : TypeExpr
  directives : List Directive
  /-- The levels of its `@semanticNonNull` directive, if it has one. -/
  semantic : Option Levels
  deriving BEq

/-- A field of a name and type, and nothing else. -/
def Field.ofType (name : String) (type : TypeExpr) : Field := ⟨name, none, [], type, [], none⟩

structure Schema where
  roots : Roots
  directives : List Directive
  types : Registry (TypeDefinition Field)
  directiveDefinitions : Registry DirectiveDefinition

namespace Schema

def empty : Schema := ⟨Roots.none, [], ∅, ∅⟩

instance : Inhabited Schema := ⟨empty⟩

/-- The definition registered under a name (`get_type`). -/
def type? (s : Schema) (name : String) : Option (TypeDefinition Field) := s.types.find? name

/-- The first field of a name in the type registered under another (`field`). -/
def field? (s : Schema) (type field : String) : Option Field :=
  (s.type? type).bind fun d => d.fields.find? (·.name == field)

/-- Registers a definition under its own name; it takes the place of an earlier one (`with_type`). -/
def withType (s : Schema) (definition : TypeDefinition Field) : Schema :=
  { s with types := s.types.insert definition.name definition }

def hasObject (s : Schema) (name : String) : Bool :=
  match s.type? name with
  | some d => d.isObject
  | none => false

/-- Applies a function to the first field of a name. -/
def updateFirst (field : String) (f : Field → Field) : List Field → List Field
  | [] => []
  | a :: rest => if a.name = field then f a :: rest else a :: updateFirst field f rest

/-- Applies a function to the first field of a name in an object or interface. -/
def updateField (s : Schema) (type field : String) (f : Field → Field) : Schema :=
  let update (t : FieldedType Field) := { t with fields := updateFirst field f t.fields }
  match s.type? type with
  | some (.object t) => { s with types := s.types.insert type (.object (update t)) }
  | some (.interface t) => { s with types := s.types.insert type (.interface (update t)) }
  | _ => s

/-- Equality of schemas. The order in which types and directives are registered does not count;
every other order does. -/
def same (s t : Schema) : Bool :=
  s.roots == t.roots && s.directives == t.directives &&
    s.types.same (· == ·) t.types &&
    s.directiveDefinitions.same (· == ·) t.directiveDefinitions

end Schema

end SemanticNullability
