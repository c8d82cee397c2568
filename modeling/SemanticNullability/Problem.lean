import SemanticNullability.Schema
/-!
# Problems of a schema

A problem is a fault at a coordinate: which rule is broken, and where. The wording of both is here;
which schema has which problems is the subject of `Validation`.
-/
namespace SemanticNullability

/-- A place in a schema. -/
inductive Coordinate where
  | schema
  | root (op : Operation)
  | type (owner : String)
  | field (owner name : String)
  | argument (owner name arg : String)
  deriving DecidableEq, Inhabited

def Coordinate.text : Coordinate → String
  | schema => "schema"
  | root op => "schema." ++ op.text
  | type owner => owner
  | field owner name => owner ++ "." ++ name
  | argument owner name arg => owner ++ "." ++ name ++ "(" ++ arg ++ ":)"

/-- A rule that a schema breaks. -/
inductive Fault where
  /-- There is no query root type. -/
  | noQuery
  /-- A root type is no object. -/
  | rootKind (op : Operation) (name : String) (kind : TypeKind)
  /-- A name stands for no type. -/
  | unknownType (name : String)
  /-- A type bears a name of introspection. -/
  | reservedName
  /-- An object or interface has no field. -/
  | noFields
  /-- What is implemented is no interface. -/
  | implementsKind (name : String) (kind : TypeKind)
  /-- What is implemented is not known. -/
  | unknownInterface (name : String)
  /-- A field has a type that is for input only. -/
  | outputKind (name : String) (kind : TypeKind)
  /-- An argument or input field has a type that is for output only. -/
  | inputKind (name : String) (kind : TypeKind)
  /-- A directive has no definition. -/
  | unknownDirective (name : String)
  /-- A union has no member. -/
  | noMembers
  /-- A member of a union is no object. -/
  | memberKind (name : String) (kind : TypeKind)
  /-- An input object has no field. -/
  | noInputFields
  deriving DecidableEq, Inhabited

def Fault.message : Fault → String
  | noQuery => "query root type must be provided"
  | rootKind op name kind =>
    op.text ++ " root type must be an object type, " ++ name ++ " is " ++ kind.text
  | unknownType name => "unknown type " ++ name
  | reservedName => "names beginning with \"__\" are reserved for introspection"
  | noFields => "type must define one or more fields"
  | implementsKind name kind => "can only implement interfaces, " ++ name ++ " is " ++ kind.text
  | unknownInterface name => "unknown interface " ++ name
  | outputKind name kind =>
    "field type must be an output type, " ++ name ++ " is " ++ kind.text
  | inputKind name kind => "input type expected, " ++ name ++ " is " ++ kind.text
  | unknownDirective name => "unknown directive @" ++ name
  | noMembers => "union must have at least one member type"
  | memberKind name kind =>
    "union member " ++ name ++ " must be an object type, not " ++ kind.text
  | noInputFields => "input object must define one or more fields"

/-- A fault and its place (`SchemaError`). -/
structure Problem where
  coordinate : Coordinate
  fault : Fault
  deriving DecidableEq, Inhabited

/-- The text of a problem: the place, then the fault. -/
def Problem.text (p : Problem) : String := p.coordinate.text ++ ": " ++ p.fault.message

/-- The headline over a list of problems. -/
def invalidMessage (problems : List Problem) : String :=
  "invalid schema: " ++ toString problems.length ++ " error(s)"

end SemanticNullability
