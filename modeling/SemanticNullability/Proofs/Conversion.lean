import SemanticNullability.Proofs.Assembly
import SemanticNullability.Proofs.Walk
/-!
# Conversion without a walk

The conversion of a schema goes through a worklist, a memo of what has been met and an assembly.
None of this can be seen in the result: `Schema.convertPlain` goes through the registry once, from
front to back, and `convert_eq_convertPlain` says that it gives the same schema, whatever the types
refer to.
-/
namespace SemanticNullability

/-! ## The plain conversion -/

/-- The field with its type converted and its levels used up; all else is kept. -/
def Field.convertPlain (mode : Mode) (f : Field) : Field :=
  { f with type := f.applyLevels.type.convert mode, semantic := none }

/-- Converts the fields of an object or interface; any other definition is kept. -/
def TypeDefinition.convertPlain (mode : Mode) : TypeDefinition Field → TypeDefinition Field
  | object t => object { t with fields := t.fields.map (Field.convertPlain mode) }
  | interface t => interface { t with fields := t.fields.map (Field.convertPlain mode) }
  | union t => union t
  | scalar t => scalar t
  | enum t => enum t
  | inputObject t => inputObject t

/-- The plain conversion of a schema: the registered types outside of introspection, each converted
where it stands, and all directive definitions but that of `@semanticNonNull`. -/
def Schema.convertPlain (mode : Mode) (s : Schema) : Schema where
  roots := s.roots
  directives := s.directives
  types := (s.types.filterKeys fun key => !isIntrospectionName key).map
    (TypeDefinition.convertPlain mode)
  directiveDefinitions := s.directiveDefinitions.filterKeys fun key => key ≠ semanticNonNullName

theorem Field.convert_eq_plain (mode : Mode) (f : Field) :
    f.convert mode = f.convertPlain mode := by
  unfold Field.convert Field.convertPlain Field.applyLevels
  cases h : f.semantic with
  | some levels => rfl
  | none =>
    simp only
    rw [← h]

theorem TypeDefinition.convert_eq_plain (mode : Mode) (d : TypeDefinition Field) :
    d.convert mode = d.convertPlain mode := by
  have hfields : Field.convert mode = Field.convertPlain mode :=
    funext (Field.convert_eq_plain mode)
  rw [TypeDefinition.convert, hfields]
  cases d <;> rfl

/-! ## The types of a converted schema -/

namespace Schema

theorem keys_types_convert (mode : Mode) (s : Schema) :
    (s.convert mode).types.keys = s.types.keys.filter fun key => !isIntrospectionName key := by
  have hcontains : ∀ key, (Worklist.complete s mode).finish.contains key =
      (!isIntrospectionName key && s.types.contains key) := by
    intro key
    rw [Registry.contains_eq_isSome, Worklist.find?_complete, Registry.contains_eq_isSome]
    cases isIntrospectionName key with
    | true => rfl
    | false => exact Option.isSome_map
  have hothers :
      (Worklist.complete s mode).finish.keys.filter (fun k => !s.types.contains k) = [] := by
    refine List.filter_eq_nil_iff.2 fun key hkey => ?_
    have hfound := Registry.contains_iff.2 hkey
    rw [hcontains, Bool.and_eq_true] at hfound
    simp [hfound.2]
  rw [Worklist.convert_eq_assemble, keys_types_assemble, hothers, List.append_nil,
    List.filter_filter]
  refine List.filter_congr fun key hkey => ?_
  rw [hcontains, Registry.contains_iff.2 hkey]
  cases isIntrospectionName key <;> rfl

theorem type?_convert (mode : Mode) (s : Schema) (key : String) :
    (s.convert mode).type? key =
      if isIntrospectionName key then none
      else (s.type? key).map (TypeDefinition.convert mode) := by
  have hfind := find?_types_assemble s (Worklist.complete s mode).finish key
  rw [Worklist.find?_complete] at hfind
  rw [type?, Worklist.convert_eq_assemble, hfind]
  cases isIntrospectionName key <;> rfl

/-- The registry of a converted schema: nothing is lost, doubled or moved. -/
theorem types_convert (mode : Mode) (s : Schema) :
    (s.convert mode).types =
      (s.types.filterKeys fun key => !isIntrospectionName key).map
        (TypeDefinition.convert mode) := by
  refine Registry.ext_find? ?_ fun key => ?_
  · rw [keys_types_convert, Registry.keys_map, Registry.keys_filterKeys]
  · have hfind := type?_convert mode s key
    rw [Registry.find?_map, Registry.find?_filterKeys]
    rw [type?] at hfind
    rw [hfind]
    cases isIntrospectionName key <;> rfl

/-- **The walk cannot be seen.** Conversion by the worklist gives what going through the registry
once gives, for every schema: with circles of references, with names that nothing is registered
under, with root types that are missing. -/
theorem convert_eq_convertPlain (mode : Mode) (s : Schema) :
    s.convert mode = s.convertPlain mode := by
  have htypes := types_convert mode s
  rw [funext (TypeDefinition.convert_eq_plain mode)] at htypes
  calc s.convert mode
      = { s.convertPlain mode with types := (s.convert mode).types } := rfl
    _ = s.convertPlain mode := by rw [htypes]; rfl

end Schema

end SemanticNullability
