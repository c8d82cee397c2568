import SemanticNullability.Directive
/-!
# Type definitions

The six kinds of type definitions. Documents and schemas hold the same definitions up to the
fields of objects and interfaces, which a document writes and a schema has read; the type of the
fields is therefore a parameter, and `TypeDefinition.mapFields` and `TypeDefinition.mapFieldsM` go
from one to the other. `TypeDefinition.append?` is the merge of a definition with an extension.
-/
namespace SemanticNullability

/-- What kind of type a name stands for. -/
inductive TypeKind where
  | object | interface | union | scalar | enum | inputObject
  deriving DecidableEq, Inhabited

namespace TypeKind

def text : TypeKind → String
  | object => "object"
  | interface => "interface"
  | union => "union"
  | scalar => "scalar"
  | enum => "enum"
  | inputObject => "input object"

/-- Types that an output field may have (`is_output`). -/
def isOutput : TypeKind → Bool
  | inputObject => false
  | _ => true

/-- Types that an argument or an input field may have (`is_input`). -/
def isInput : TypeKind → Bool
  | scalar | enum | inputObject => true
  | _ => false

end TypeKind

/-- An object or an interface, with fields of type `φ`. -/
structure FieldedType (φ : Type) where
  name : String
  description : Option String
  interfaces : List String
  directives : List Directive
  fields : List φ
  deriving BEq, Inhabited

structure UnionType where
  name : String
  description : Option String
  directives : List Directive
  members : List String
  deriving BEq, Inhabited

structure ScalarType where
  name : String
  description : Option String
  directives : List Directive
  deriving BEq, Inhabited

structure EnumValue where
  name : String
  description : Option String
  directives : List Directive
  deriving BEq, Inhabited

structure EnumType where
  name : String
  description : Option String
  directives : List Directive
  values : List EnumValue
  deriving BEq, Inhabited

structure InputObjectType where
  name : String
  description : Option String
  directives : List Directive
  fields : List InputValue
  deriving BEq, Inhabited

inductive TypeDefinition (φ : Type) where
  | object (type : FieldedType φ)
  | interface (type : FieldedType φ)
  | union (type : UnionType)
  | scalar (type : ScalarType)
  | enum (type : EnumType)
  | inputObject (type : InputObjectType)
  deriving BEq, Inhabited

def FieldedType.mapFields {φ ψ : Type} (f : φ → ψ) (t : FieldedType φ) : FieldedType ψ :=
  ⟨t.name, t.description, t.interfaces, t.directives, t.fields.map f⟩

/-- Both parts of an object or interface, under the name and description of the first. -/
def FieldedType.append {φ : Type} (t e : FieldedType φ) : FieldedType φ :=
  { t with
    interfaces := t.interfaces ++ e.interfaces
    directives := t.directives ++ e.directives
    fields := t.fields ++ e.fields }

/-- Replaces every field, as long as each has a replacement; the fields go in order, and the first
that has none decides. -/
def replaceEach {ε φ ψ : Type} (f : φ → Except ε ψ) : List φ → Except ε (List ψ)
  | [] => .ok []
  | a :: rest =>
    match f a with
    | .error e => .error e
    | .ok b =>
      match replaceEach f rest with
      | .error e => .error e
      | .ok bs => .ok (b :: bs)

namespace TypeDefinition

variable {φ ψ : Type}

def name : TypeDefinition φ → String
  | object t => t.name
  | interface t => t.name
  | union t => t.name
  | scalar t => t.name
  | enum t => t.name
  | inputObject t => t.name

def kind : TypeDefinition φ → TypeKind
  | object _ => .object
  | interface _ => .interface
  | union _ => .union
  | scalar _ => .scalar
  | enum _ => .enum
  | inputObject _ => .inputObject

def isObject (d : TypeDefinition φ) : Bool := d.kind == .object

/-- The output fields; only objects and interfaces have any. -/
def fields : TypeDefinition φ → List φ
  | object t => t.fields
  | interface t => t.fields
  | _ => []

/-- The same definition with every output field replaced. -/
def mapFields (f : φ → ψ) : TypeDefinition φ → TypeDefinition ψ
  | object t => object (t.mapFields f)
  | interface t => interface (t.mapFields f)
  | union t => union t
  | scalar t => scalar t
  | enum t => enum t
  | inputObject t => inputObject t

/-- The same definition with every output field replaced, as long as each has a replacement; `f`
gets the name of the definition too. -/
def mapFieldsM {ε : Type} (f : String → φ → Except ε ψ) :
    TypeDefinition φ → Except ε (TypeDefinition ψ)
  | object t =>
    (replaceEach (f t.name) t.fields).map fun fields =>
      object ⟨t.name, t.description, t.interfaces, t.directives, fields⟩
  | interface t =>
    (replaceEach (f t.name) t.fields).map fun fields =>
      interface ⟨t.name, t.description, t.interfaces, t.directives, fields⟩
  | union t => .ok (union t)
  | scalar t => .ok (scalar t)
  | enum t => .ok (enum t)
  | inputObject t => .ok (inputObject t)

/-- The definition with the parts of an extension of the same kind behind its own, as
`apply_extension` puts them there. Name and description are those of the definition. There is no
such definition if the kinds differ. -/
def append? : TypeDefinition φ → TypeDefinition φ → Option (TypeDefinition φ)
  | object t, object e => some (object (t.append e))
  | interface t, interface e => some (interface (t.append e))
  | union t, union e =>
    some (union { t with
      directives := t.directives ++ e.directives
      members := t.members ++ e.members })
  | scalar t, scalar e => some (scalar { t with directives := t.directives ++ e.directives })
  | enum t, enum e =>
    some (enum { t with
      directives := t.directives ++ e.directives
      values := t.values ++ e.values })
  | inputObject t, inputObject e =>
    some (inputObject { t with
      directives := t.directives ++ e.directives
      fields := t.fields ++ e.fields })
  | _, _ => none

@[simp] theorem name_mapFields (f : φ → ψ) (d : TypeDefinition φ) : (d.mapFields f).name = d.name := by
  cases d <;> rfl

@[simp] theorem kind_mapFields (f : φ → ψ) (d : TypeDefinition φ) : (d.mapFields f).kind = d.kind := by
  cases d <;> rfl

/-- An extension fits exactly the definitions of its own kind. -/
theorem append?_eq_none_iff {d e : TypeDefinition φ} : d.append? e = none ↔ d.kind ≠ e.kind := by
  cases d <;> cases e <;> simp [append?, kind]

theorem kind_append? {d e r : TypeDefinition φ} (h : d.append? e = some r) : r.kind = d.kind := by
  cases d <;> cases e <;> cases h <;> rfl

end TypeDefinition

end SemanticNullability
