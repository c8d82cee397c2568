import SemanticNullability.Schema
/-!
# Levels as semantic markers

The levels of a directive become markers inside the field's type. At a covered list depth the
marker stands for every wrapper that was there; at any other depth only markers that were there
before are dropped. `Field.applyLevels` does so for a field that has levels, which are then used up.
-/
namespace SemanticNullability

namespace TypeExpr

/-- Puts the markers of `levels` into a type that stands at the list depth `level` (`resolve_at`). -/
def resolveAt (levels : Levels) : Level → TypeExpr → TypeExpr
  | level, named name =>
    if levels.contains level then semanticNonNull (named name) else named name
  | level, list item =>
    let resolved := list (resolveAt levels (level + 1) item)
    if levels.contains level then semanticNonNull resolved else resolved
  | level, nonNull inner =>
    let resolved := resolveAt levels level inner
    if levels.contains level then resolved else nonNull resolved
  | level, semanticNonNull inner => resolveAt levels level inner

/-- Puts the markers of `levels` into the type of a field (`resolve_levels`). -/
def resolve (t : TypeExpr) (levels : Levels) : TypeExpr := resolveAt levels 0 t

end TypeExpr

/-- Turns the levels of a field, if it has any, into markers of its type (`apply_directive`). -/
def Field.applyLevels (f : Field) : Field :=
  match f.semantic with
  | some levels => { f with type := f.type.resolve levels, semantic := none }
  | none => f

theorem Field.semantic_applyLevels (f : Field) : f.applyLevels.semantic = none := by
  unfold Field.applyLevels
  split
  · rfl
  · assumption

end SemanticNullability
