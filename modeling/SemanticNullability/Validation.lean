import SemanticNullability.Name
import SemanticNullability.Problem
/-!
# Validation

`Schema.problems` lists everything that would make a converted schema meaningless: references to
nothing, root types that are no objects, types without content, directives without a definition.
The problems of the roots come first, then those of the types in the order of their registration.
A schema is valid if there are none.
-/
namespace SemanticNullability

namespace Schema

/-- The kind of type that a name stands for (`kind_of`): that of the definition registered under it,
or scalar for a built-in scalar that is not registered. -/
def kindOf? (s : Schema) (name : String) : Option TypeKind :=
  match s.type? name with
  | some definition => some definition.kind
  | none => if isBuiltinScalar name then some .scalar else none

/-- The problem, if any, of a reference that has to lead to a kind of type that satisfies `ok`. -/
def referenceProblem (s : Schema) (place : Coordinate) (name : String) (ok : TypeKind → Bool)
    (wrongKind : TypeKind → Fault) (unknown : Fault) : List Problem :=
  match s.kindOf? name with
  | some kind => if ok kind then [] else [⟨place, wrongKind kind⟩]
  | none => [⟨place, unknown⟩]

/-- The problem of something that must not be empty. -/
def emptyProblem {α : Type} (place : Coordinate) (fault : Fault) (l : List α) : List Problem :=
  if l.isEmpty then [⟨place, fault⟩] else []

/-- The problems of the root types (`check_roots`). -/
def rootProblems (s : Schema) : List Problem :=
  (if s.roots.query.isNone then [⟨.schema, .noQuery⟩] else []) ++
    s.roots.toList.flatMap fun (op, name) =>
      s.referenceProblem (.root op) name (· == .object) (.rootKind op name) (.unknownType name)

/-- The problem of an argument or input field whose type is not for input (`check_input_value`). -/
def inputProblems (s : Schema) (place : Coordinate) (v : InputValue) : List Problem :=
  s.referenceProblem place v.type.baseName TypeKind.isInput (.inputKind v.type.baseName)
    (.unknownType v.type.baseName)

def definesDirective (s : Schema) (name : String) : Bool := s.directiveDefinitions.contains name

/-- The directives that fields may use without a definition (`BUILTIN_FIELD_DIRECTIVES`). -/
def builtinFieldDirectives : List String := ["deprecated"]

/-- The problem of a field's directive that is neither built in nor defined. -/
def directiveProblems (s : Schema) (place : Coordinate) (d : Directive) : List Problem :=
  if builtinFieldDirectives.contains d.name || s.definesDirective d.name then []
  else [⟨place, .unknownDirective d.name⟩]

/-- The problem of levels that come from a directive without a definition. -/
def levelsProblems (s : Schema) (place : Coordinate) (f : Field) : List Problem :=
  if f.semantic.isSome && !s.definesDirective semanticNonNullName then
    [⟨place, .unknownDirective semanticNonNullName⟩]
  else []

/-- The problems of a field: what the loop of `check_fielded` adds for it. -/
def fieldProblems (s : Schema) (type : String) (f : Field) : List Problem :=
  let place := Coordinate.field type f.name
  s.referenceProblem place f.type.baseName TypeKind.isOutput (.outputKind f.type.baseName)
      (.unknownType f.type.baseName) ++
    f.arguments.flatMap (fun a => s.inputProblems (.argument type f.name a.name) a) ++
    s.levelsProblems place f ++
    f.directives.flatMap (s.directiveProblems place)

/-- The problems of an object or interface (`check_fielded`). -/
def fieldedProblems (s : Schema) (t : FieldedType Field) : List Problem :=
  emptyProblem (.type t.name) .noFields t.fields ++
    t.interfaces.flatMap (fun i =>
      s.referenceProblem (.type t.name) i (· == .interface) (.implementsKind i)
        (.unknownInterface i)) ++
    t.fields.flatMap (s.fieldProblems t.name)

/-- The problems of a definition, its name aside. -/
def contentProblems (s : Schema) : TypeDefinition Field → List Problem
  | .object t => s.fieldedProblems t
  | .interface t => s.fieldedProblems t
  | .union t =>
    emptyProblem (.type t.name) .noMembers t.members ++
      t.members.flatMap fun m =>
        s.referenceProblem (.type t.name) m (· == .object) (.memberKind m) (.unknownType m)
  | .inputObject t =>
    emptyProblem (.type t.name) .noInputFields t.fields ++
      t.fields.flatMap fun f => s.inputProblems (.field t.name f.name) f
  | .scalar _ => []
  | .enum _ => []

/-- The problems of a definition (`check_definition`). -/
def definitionProblems (s : Schema) (d : TypeDefinition Field) : List Problem :=
  (if isIntrospectionName d.name then [⟨.type d.name, .reservedName⟩] else []) ++
    s.contentProblems d

/-- All problems of a schema, in the order in which `validate` finds them. -/
def problems (s : Schema) : List Problem :=
  s.rootProblems ++ s.types.values.flatMap s.definitionProblems

end Schema

end SemanticNullability
