import SemanticNullability.TypeDefinition
/-!
# Documents

A document is a list of definitions, as SDL writes them: schema blocks, types, directives and
extensions of types.
-/
namespace SemanticNullability

/-- The operations that have a root type. -/
inductive Operation where
  | query | mutation | subscription
  deriving DecidableEq, Inhabited

namespace Operation

def text : Operation → String
  | query => "query"
  | mutation => "mutation"
  | subscription => "subscription"

/-- The name that an operation's root type has by convention. -/
def typeName : Operation → String
  | query => "Query"
  | mutation => "Mutation"
  | subscription => "Subscription"

/-- All operations, in the order in which they are listed everywhere. -/
def all : List Operation := [query, mutation, subscription]

def ofText? (word : String) : Option Operation := all.find? (·.text == word)

theorem mem_all (op : Operation) : op ∈ all := by cases op <;> decide

theorem ofText?_text (op : Operation) : ofText? op.text = some op := by cases op <;> decide

end Operation

/-- The root types of the operations. -/
structure Roots where
  query : Option String
  mutation : Option String
  subscription : Option String
  deriving DecidableEq, Inhabited

namespace Roots

def none : Roots := ⟨.none, .none, .none⟩

def get? (r : Roots) : Operation → Option String
  | .query => r.query
  | .mutation => r.mutation
  | .subscription => r.subscription

def set (r : Roots) (op : Operation) (name : Option String) : Roots :=
  match op with
  | .query => { r with query := name }
  | .mutation => { r with mutation := name }
  | .subscription => { r with subscription := name }

def ofFn (f : Operation → Option String) : Roots := ⟨f .query, f .mutation, f .subscription⟩

/-- The operations that have a root type, with its name (`roots`). -/
def toList (r : Roots) : List (Operation × String) :=
  Operation.all.filterMap fun op => (r.get? op).map fun name => (op, name)

theorem get?_ofFn (f : Operation → Option String) (op : Operation) : (ofFn f).get? op = f op := by
  cases op <;> rfl

theorem ofFn_get? (r : Roots) : ofFn r.get? = r := rfl

theorem ext_get? {r t : Roots} (h : ∀ op, r.get? op = t.get? op) : r = t := by
  rw [← ofFn_get? r, ← ofFn_get? t, funext h]

theorem get?_set (r : Roots) (op : Operation) (name : Option String) (o : Operation) :
    (r.set op name).get? o = if o = op then name else r.get? o := by
  cases op <;> cases o <;> rfl

theorem mem_toList {r : Roots} {op : Operation} {name : String} :
    (op, name) ∈ r.toList ↔ r.get? op = some name := by
  simp only [toList, List.mem_filterMap, Option.map_eq_some_iff, Prod.mk.injEq]
  constructor
  · rintro ⟨o, _, n, hn, rfl, rfl⟩
    exact hn
  · intro h
    exact ⟨op, Operation.mem_all op, name, h, rfl, rfl⟩

end Roots

/-- An output field, as a document writes it. -/
structure WrittenField where
  name : String
  description : Option String
  arguments : List InputValue
  type : WrittenType
  directives : List Directive
  deriving BEq, Inhabited

/-- The schema block: the root types and the directives of the schema itself. -/
structure SchemaBlock where
  directives : List Directive
  roots : Roots
  deriving BEq, Inhabited

/-- A definition of a document. An extension is written like a definition of its type; it has no
description. -/
inductive Definition where
  | schema (block : SchemaBlock)
  | type (definition : TypeDefinition WrittenField)
  | directive (definition : DirectiveDefinition)
  | extend (extension : TypeDefinition WrittenField)
  deriving BEq, Inhabited

/-- The definitions of a text, in order. -/
abbrev Document := List Definition

end SemanticNullability
