import SemanticNullability.Proofs.Conversion
import SemanticNullability.Proofs.Depth
import SemanticNullability.Proofs.Writing
/-!
# Clean schemas

A schema is clean when conversion finds nothing to do in it: no levels, no markers, no non-null
wrapper directly inside another, nothing of introspection and no definition of `@semanticNonNull`.
Converted schemas are clean, so they can be written, and the clean schemas are exactly those that
conversion leaves as they are (`convert_clean_fixpoint`).
-/
namespace SemanticNullability

namespace TypeExpr

/-- Whether the outermost wrapper is an enforced non-null one. -/
def isNonNull : TypeExpr → Bool
  | nonNull _ => true
  | _ => false

/-- Whether an enforced non-null wrapper stands directly inside another. -/
def hasDoubleNonNull : TypeExpr → Bool
  | named _ => false
  | list item => item.hasDoubleNonNull
  | nonNull inner => inner.isNonNull || inner.hasDoubleNonNull
  | semanticNonNull inner => inner.hasDoubleNonNull

theorem nonNullOnce_of_not_isNonNull {t : TypeExpr} (h : t.isNonNull = false) :
    t.nonNullOnce = nonNull t := by
  cases t with
  | named name => rfl
  | list item => rfl
  | nonNull inner => cases h
  | semanticNonNull inner => rfl

theorem hasDoubleNonNull_nonNullOnce (t : TypeExpr) :
    t.nonNullOnce.hasDoubleNonNull = t.hasDoubleNonNull := by
  cases t <;> rfl

/-- Converted types have no doubled wrapper. -/
theorem hasDoubleNonNull_convert (mode : Mode) (t : TypeExpr) :
    (t.convert mode).hasDoubleNonNull = false := by
  induction t with
  | named name => rfl
  | list item ih => exact ih
  | nonNull inner ih => rw [convert, hasDoubleNonNull_nonNullOnce, ih]
  | semanticNonNull inner ih =>
    cases mode with
    | strict => rw [convert, hasDoubleNonNull_nonNullOnce, ih]
    | nullable => exact ih

/-- A type without markers and doubled wrappers is left as it is. -/
theorem convert_eq_self (mode : Mode) {t : TypeExpr} (hmark : t.hasMarker = false)
    (hdouble : t.hasDoubleNonNull = false) : t.convert mode = t := by
  induction t with
  | named name => rfl
  | list item ih => rw [convert, ih hmark hdouble]
  | nonNull inner ih =>
    obtain ⟨hhead, hrest⟩ := Bool.or_eq_false_iff.1 hdouble
    rw [convert, ih hmark hrest, nonNullOnce_of_not_isNonNull hhead]
  | semanticNonNull inner => cases hmark

end TypeExpr

/-! ## Clean fields -/

/-- A field that conversion has nothing to do with. -/
structure Field.IsClean (f : Field) : Prop extends Field.IsResolved f where
  single : f.type.hasDoubleNonNull = false

theorem Field.isClean_convert (mode : Mode) (f : Field) : (f.convert mode).IsClean where
  unannotated := f.semantic_applyLevels
  unmarked := TypeExpr.hasMarker_convert mode _
  single := TypeExpr.hasDoubleNonNull_convert mode _

theorem Field.convert_eq_self (mode : Mode) {f : Field} (h : f.IsClean) : f.convert mode = f := by
  have happlied : f.applyLevels = f := by rw [applyLevels, h.unannotated]
  simp only [convert, happlied, TypeExpr.convert_eq_self mode h.unmarked h.single]

/-! ## Clean schemas -/

/-- A schema that conversion has nothing to do with. -/
structure Schema.IsClean (s : Schema) : Prop where
  fields : ∀ e ∈ s.types.entries, ∀ f ∈ e.2.fields, f.IsClean
  names : ∀ key ∈ s.types.keys, isIntrospectionName key = false
  directive : semanticNonNullName ∉ s.directiveDefinitions.keys

namespace Schema

theorem IsClean.isResolved {s : Schema} (h : s.IsClean) : s.IsResolved :=
  fun e he f hf => (h.fields e he f hf).toIsResolved

theorem isClean_convert (mode : Mode) (s : Schema) : (s.convert mode).IsClean where
  fields e he f hf := by
    rw [types_convert] at he
    obtain ⟨source, _, rfl⟩ := List.mem_map.1 he
    have hfields : f ∈ source.2.fields.map (Field.convert mode) := by
      rw [← TypeDefinition.fields_mapFields]
      exact hf
    obtain ⟨g, _, rfl⟩ := List.mem_map.1 hfields
    exact Field.isClean_convert mode g
  names key hkey := by
    rw [keys_types_convert] at hkey
    simpa using (List.mem_filter.1 hkey).2
  directive hmem := by
    have hdirs : (s.convert mode).directiveDefinitions =
        s.directiveDefinitions.erase semanticNonNullName := rfl
    rw [hdirs, Registry.keys_erase] at hmem
    simp at hmem

theorem convert_eq_self (mode : Mode) {s : Schema} (h : s.IsClean) : s.convert mode = s := by
  have htypes : (s.convert mode).types = s.types := by
    have hkept : (s.types.filterKeys fun key => !isIntrospectionName key) = s.types := by
      refine Registry.filterKeys_eq_self fun key hkey => ?_
      rw [h.names key hkey, Bool.not_false]
    rw [types_convert, hkept]
    refine Registry.map_eq_self fun e he => TypeDefinition.mapFields_eq_self fun f hf => ?_
    exact Field.convert_eq_self mode (h.fields e he f hf)
  have hdirs : s.directiveDefinitions.erase semanticNonNullName = s.directiveDefinitions := by
    refine Registry.filterKeys_eq_self fun key hkey => decide_eq_true fun heq => ?_
    exact h.directive (heq ▸ hkey)
  calc s.convert mode
      = { s with
          types := (s.convert mode).types
          directiveDefinitions := s.directiveDefinitions.erase semanticNonNullName } := rfl
    _ = s := by rw [htypes, hdirs]

/-- **Conversion reaches a fixed point.** A converted schema is clean and can be written; the schemas
that conversion leaves as they are, are the clean ones; so converting again, in whatever mode,
changes nothing. -/
theorem convert_clean_fixpoint (mode : Mode) (s : Schema) :
    (s.convert mode).IsClean ∧
    (∃ document, (s.convert mode).toDocument = .ok document) ∧
    (∃ text, (s.convert mode).text = .ok text) ∧
    (s.convert mode = s ↔ s.IsClean) ∧
    ∀ again, (s.convert mode).convert again = s.convert mode := by
  have hclean := isClean_convert mode s
  refine ⟨hclean, ⟨_, toDocument_eq hclean.isResolved⟩, ⟨_, text_eq hclean.isResolved⟩, ?_,
    fun again => convert_eq_self again hclean⟩
  constructor
  · intro hsame
    rw [← hsame]
    exact hclean
  · exact convert_eq_self mode

end Schema

end SemanticNullability
