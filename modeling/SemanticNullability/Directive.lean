import SemanticNullability.TypeExpr
import SemanticNullability.Value
/-!
# Directives and input values

A directive is applied with named arguments, in the order written and with repetitions kept. An
input value is an argument of a field or directive, or a field of an input object.
-/
namespace SemanticNullability

/-- An applied directive. -/
structure Directive where
  name : String
  arguments : List Entry
  deriving BEq, Inhabited

/-- The first argument of a name. -/
def Directive.argument? (d : Directive) (name : String) : Option Value := d.arguments.lookup name

/-- An argument of a field or directive, or a field of an input object. -/
structure InputValue where
  name : String
  description : Option String
  type : WrittenType
  defaultValue : Option Value
  directives : List Directive
  deriving BEq, Inhabited

/-- The places where a directive may be declared to apply. -/
inductive DirectiveLocation where
  | query | mutation | subscription | field | fragmentDefinition | fragmentSpread | inlineFragment
  | variableDefinition | schema | scalar | object | fieldDefinition | argumentDefinition
  | interface | union | enum | enumValue | inputObject | inputFieldDefinition
  deriving DecidableEq, Inhabited

namespace DirectiveLocation

def text : DirectiveLocation → String
  | query => "QUERY"
  | mutation => "MUTATION"
  | subscription => "SUBSCRIPTION"
  | field => "FIELD"
  | fragmentDefinition => "FRAGMENT_DEFINITION"
  | fragmentSpread => "FRAGMENT_SPREAD"
  | inlineFragment => "INLINE_FRAGMENT"
  | variableDefinition => "VARIABLE_DEFINITION"
  | schema => "SCHEMA"
  | scalar => "SCALAR"
  | object => "OBJECT"
  | fieldDefinition => "FIELD_DEFINITION"
  | argumentDefinition => "ARGUMENT_DEFINITION"
  | interface => "INTERFACE"
  | union => "UNION"
  | enum => "ENUM"
  | enumValue => "ENUM_VALUE"
  | inputObject => "INPUT_OBJECT"
  | inputFieldDefinition => "INPUT_FIELD_DEFINITION"

def all : List DirectiveLocation :=
  [query, mutation, subscription, field, fragmentDefinition, fragmentSpread, inlineFragment,
    variableDefinition, schema, scalar, object, fieldDefinition, argumentDefinition, interface,
    union, enum, enumValue, inputObject, inputFieldDefinition]

def ofText? (name : String) : Option DirectiveLocation := all.find? (·.text == name)

theorem ofText?_text (l : DirectiveLocation) : ofText? l.text = some l := by cases l <;> decide

end DirectiveLocation

structure DirectiveDefinition where
  name : String
  description : Option String
  arguments : List InputValue
  repeatable : Bool
  locations : List DirectiveLocation
  deriving BEq, Inhabited

end SemanticNullability
