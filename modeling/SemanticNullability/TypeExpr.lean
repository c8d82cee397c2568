/-!
# Type compositions

The type of a field is a named type under any nesting of list, non-null and semantic non-null
wrappers. SDL can write all of these but the semantic one, so the types that occur in a document
are a type of their own, `WrittenType`; `TypeExpr.ofWritten` embeds them and `TypeExpr.written?`
goes back where that is possible (`written?_ofWritten`, `written?_eq_some_iff`).
-/
namespace SemanticNullability

/-- A type as SDL writes it. -/
inductive WrittenType where
  | named (name : String)
  | list (item : WrittenType)
  | nonNull (inner : WrittenType)
  deriving DecidableEq, Inhabited

/-- The type of an output field (`TypeRef`): a named type under list, non-null and semantic non-null
wrappers, nested in any way. -/
inductive TypeExpr where
  | named (name : String)
  | list (item : TypeExpr)
  | nonNull (inner : TypeExpr)
  | semanticNonNull (inner : TypeExpr)
  deriving DecidableEq, Inhabited

def WrittenType.baseName : WrittenType → String
  | named name => name
  | list item => item.baseName
  | nonNull inner => inner.baseName

namespace TypeExpr

/-- The name under all wrappers (`base_name`). -/
def baseName : TypeExpr → String
  | named name => name
  | list item => item.baseName
  | nonNull inner => inner.baseName
  | semanticNonNull inner => inner.baseName

/-- Whether a semantic marker occurs anywhere in the composition (`has_semantic_marker`). -/
def hasMarker : TypeExpr → Bool
  | named _ => false
  | list item => item.hasMarker
  | nonNull inner => inner.hasMarker
  | semanticNonNull _ => true

/-! ## Written types as compositions -/

/-- A written type is a composition without semantic markers (`type_ref_from_ast`). -/
def ofWritten : WrittenType → TypeExpr
  | .named name => named name
  | .list item => list (ofWritten item)
  | .nonNull inner => nonNull (ofWritten inner)

/-- The written form of a composition; there is none for a semantic marker. This is
`type_ref_to_ast` behind the check that `field_to_ast` makes first. -/
def written? : TypeExpr → Option WrittenType
  | named name => some (.named name)
  | list item => item.written?.map .list
  | nonNull inner => inner.written?.map .nonNull
  | semanticNonNull _ => none

theorem baseName_ofWritten : ∀ t : WrittenType, (ofWritten t).baseName = t.baseName
  | .named _ => rfl
  | .list item => baseName_ofWritten item
  | .nonNull inner => baseName_ofWritten inner

theorem hasMarker_ofWritten : ∀ t : WrittenType, (ofWritten t).hasMarker = false
  | .named _ => rfl
  | .list item => hasMarker_ofWritten item
  | .nonNull inner => hasMarker_ofWritten inner

theorem written?_ofWritten : ∀ t : WrittenType, (ofWritten t).written? = some t
  | .named _ => rfl
  | .list item => by simp [ofWritten, written?, written?_ofWritten item]
  | .nonNull inner => by simp [ofWritten, written?, written?_ofWritten inner]

/-- A written form reads back as the composition it was made from, and no other. -/
theorem written?_eq_some_iff {t : TypeExpr} {w : WrittenType} :
    t.written? = some w ↔ ofWritten w = t := by
  constructor
  · intro h
    induction t generalizing w with
    | named name => cases h; rfl
    | list item ih =>
      obtain ⟨v, hv, rfl⟩ := Option.map_eq_some_iff.1 h
      simp [ofWritten, ih hv]
    | nonNull inner ih =>
      obtain ⟨v, hv, rfl⟩ := Option.map_eq_some_iff.1 h
      simp [ofWritten, ih hv]
    | semanticNonNull => cases h
  · rintro rfl
    exact written?_ofWritten w

/-- Only a semantic marker stands in the way of a written form. -/
theorem written?_eq_none_iff : ∀ {t : TypeExpr}, t.written? = none ↔ t.hasMarker = true
  | named _ => by simp [written?, hasMarker]
  | list item => by simp [written?, hasMarker, written?_eq_none_iff (t := item)]
  | nonNull inner => by simp [written?, hasMarker, written?_eq_none_iff (t := inner)]
  | semanticNonNull _ => by simp [written?, hasMarker]

end TypeExpr

end SemanticNullability
