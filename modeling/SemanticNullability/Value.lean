import SemanticNullability.Decimal.Binary64
/-!
# Values

The values that directive arguments and default values are written with. An object lists its
entries in the order of their keys, each key once; `Value.putEntry` keeps a list of entries so.
-/
namespace SemanticNullability

/-- A value as SDL writes it. -/
inductive Value where
  | variable (name : String)
  | int (value : Int64)
  | float (value : Binary64)
  | string (text : String)
  | boolean (value : Bool)
  | null
  | enum (name : String)
  | list (items : List Value)
  | object (entries : List (String × Value))
  deriving BEq, Inhabited

abbrev Entry := String × Value

namespace Value

/-- Puts an entry at its place in the order of the keys; an entry of the same key gives way. -/
def putEntry (key : String) (value : Value) : List Entry → List Entry
  | [] => [(key, value)]
  | (k, v) :: rest =>
    if key < k then (key, value) :: (k, v) :: rest
    else if key = k then (key, value) :: rest
    else (k, v) :: putEntry key value rest

/-- The object of a list of entries: of two entries with one key the later counts. -/
def ofEntries (entries : List Entry) : Value :=
  object (entries.foldl (fun es e => putEntry e.1 e.2 es) [])

end Value

end SemanticNullability
