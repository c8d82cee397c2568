import SemanticNullability.Resolution
/-!
# Conversion of fields

Strict conversion turns semantic markers into enforced non-null, nullable conversion drops them.
Enforced non-null that no directive covers stays in both. Neither leaves a non-null type directly
inside another.
-/
namespace SemanticNullability

/-- What becomes of semantic markers. -/
inductive Mode where
  /-- They become enforced non-null. -/
  | strict
  /-- They are dropped. -/
  | nullable
  deriving DecidableEq, Inhabited

def Mode.text : Mode → String
  | strict => "strict"
  | nullable => "nullable"

namespace TypeExpr

/-- Makes a type non-null, unless it is so already (`non_null_once`). -/
def nonNullOnce : TypeExpr → TypeExpr
  | nonNull inner => nonNull inner
  | t => nonNull t

/-- Converts a type (`convert_type`). -/
def convert (mode : Mode) : TypeExpr → TypeExpr
  | named name => named name
  | list item => list (item.convert mode)
  | nonNull inner => nonNullOnce (inner.convert mode)
  | semanticNonNull inner =>
    match mode with
    | .strict => nonNullOnce (inner.convert mode)
    | .nullable => inner.convert mode

theorem baseName_nonNullOnce (t : TypeExpr) : t.nonNullOnce.baseName = t.baseName := by
  cases t <;> rfl

@[simp] theorem baseName_convert (mode : Mode) : ∀ t : TypeExpr, (t.convert mode).baseName = t.baseName
  | named _ => rfl
  | list item => baseName_convert mode item
  | nonNull inner => by
    rw [convert, baseName_nonNullOnce, baseName_convert mode inner, baseName]
  | semanticNonNull inner => by
    cases mode with
    | strict =>
      simp only [convert, baseName_nonNullOnce, baseName]
      exact baseName_convert .strict inner
    | nullable => exact baseName_convert .nullable inner

theorem baseName_resolveAt (levels : Levels) :
    ∀ (level : Level) (t : TypeExpr), (resolveAt levels level t).baseName = t.baseName
  | level, named _ => by simp only [resolveAt]; split <;> rfl
  | level, list item => by
    simp only [resolveAt]
    split <;> exact baseName_resolveAt levels (level + 1) item
  | level, nonNull inner => by
    simp only [resolveAt]
    split <;> exact baseName_resolveAt levels level inner
  | level, semanticNonNull inner => baseName_resolveAt levels level inner

end TypeExpr

/-- Converts a field: first its levels become markers, then the markers are converted. This is what
`convert_field` returns; the name that it visits is met in `Worklist.convertType`. -/
def Field.convert (mode : Mode) (f : Field) : Field :=
  let applied := f.applyLevels
  { applied with type := applied.type.convert mode }

theorem Field.baseName_applyLevels (f : Field) : f.applyLevels.type.baseName = f.type.baseName := by
  unfold applyLevels
  split
  · exact TypeExpr.baseName_resolveAt _ 0 f.type
  · rfl

/-- Conversion leaves the type that a field refers to as it was. -/
theorem Field.baseName_convert (mode : Mode) (f : Field) :
    (f.convert mode).type.baseName = f.type.baseName := by
  rw [convert, TypeExpr.baseName_convert, baseName_applyLevels]

end SemanticNullability
