import SemanticNullability.Proofs.Conversion
import SemanticNullability.Proofs.Loaded
/-!
# Directives in use

A directive can be applied in many places: to the schema, to types, fields, arguments, enum values.
`Schema.uses` lists the names of all that are. Conversion drops the definition of `@semanticNonNull`
and, with the levels, its uses on output fields. Whatever else is applied is carried over, also where
it is `@semanticNonNull` on something that is no output field. So a schema in which every directive in
use is declared stays one exactly if there is no such use (`declaresUses_convert_iff`).
-/
namespace SemanticNullability

/-! ## Uses -/

def directiveNames (ds : List Directive) : List String := ds.map (·.name)

def InputValue.uses (v : InputValue) : List String := directiveNames v.directives

/-- The directives in use on an output field, that of its levels included, and on its arguments. -/
def Field.uses (f : Field) : List String :=
  directiveNames f.directives ++ (if f.semantic.isSome then [semanticNonNullName] else []) ++
    f.arguments.flatMap InputValue.uses

def TypeDefinition.uses (d : TypeDefinition Field) : List String :=
  directiveNames d.directives ++ d.fields.flatMap Field.uses ++
    d.values.flatMap (fun v => directiveNames v.directives) ++ d.inputFields.flatMap InputValue.uses

/-- The directives in use in the definition of a type, those on its output fields aside. -/
def TypeDefinition.usesBesideFields (d : TypeDefinition Field) : List String :=
  directiveNames d.directives ++ d.fields.flatMap (fun f => f.arguments.flatMap InputValue.uses) ++
    d.values.flatMap (fun v => directiveNames v.directives) ++ d.inputFields.flatMap InputValue.uses

def DirectiveDefinition.uses (d : DirectiveDefinition) : List String :=
  d.arguments.flatMap InputValue.uses

namespace Schema

/-- The directives that a schema may use without defining them. -/
def builtinDirectives : List String := ["deprecated", "specifiedBy"]

/-- Whether a directive may be used: it is defined or built in. -/
def Declares (s : Schema) (name : String) : Prop :=
  name ∈ s.directiveDefinitions.keys ∨ name ∈ builtinDirectives

instance (s : Schema) (name : String) : Decidable (s.Declares name) :=
  inferInstanceAs (Decidable (_ ∨ _))

/-- The directives in use anywhere in a schema. -/
def uses (s : Schema) : List String :=
  directiveNames s.directives ++ s.types.values.flatMap TypeDefinition.uses ++
    s.directiveDefinitions.values.flatMap DirectiveDefinition.uses

/-- The directives in use in what conversion keeps, those on output fields aside: on the schema, in
the types outside of introspection, and in the directive definitions but that of
`@semanticNonNull`. -/
def usesBesideFields (s : Schema) : List String :=
  directiveNames s.directives ++
    (s.types.filterKeys fun key => !isIntrospectionName key).values.flatMap
      TypeDefinition.usesBesideFields ++
    (s.directiveDefinitions.erase semanticNonNullName).values.flatMap DirectiveDefinition.uses

def DeclaresUses (s : Schema) : Prop := ∀ name ∈ s.uses, s.Declares name

instance (s : Schema) : Decidable s.DeclaresUses :=
  inferInstanceAs (Decidable (∀ name ∈ s.uses, s.Declares name))

end Schema

/-! ## What conversion keeps in use -/

theorem Field.uses_convert (mode : Mode) (f : Field) :
    (f.convert mode).uses = directiveNames f.directives ++ f.arguments.flatMap InputValue.uses := by
  have hplain : (f.convert mode).uses = (f.convertPlain mode).uses := by
    rw [Field.convert_eq_plain]
  rw [hplain, Field.uses, Field.convertPlain]
  exact congrArg (· ++ f.arguments.flatMap InputValue.uses) (List.append_nil _)

theorem TypeDefinition.mem_uses_convert {mode : Mode} {d : TypeDefinition Field} {name : String} :
    name ∈ (d.convert mode).uses ↔
      name ∈ d.usesBesideFields ∨ ∃ f ∈ d.fields, name ∈ directiveNames f.directives := by
  simp only [uses, usesBesideFields, convert, directives_mapFields, fields_mapFields,
    values_mapFields, inputFields_mapFields, List.mem_append, List.flatMap_map,
    Field.uses_convert, List.mem_flatMap]
  constructor
  · rintro (((h | ⟨f, hf, h | h⟩) | h) | h)
    · exact Or.inl (Or.inl (Or.inl (Or.inl h)))
    · exact Or.inr ⟨f, hf, h⟩
    · exact Or.inl (Or.inl (Or.inl (Or.inr ⟨f, hf, h⟩)))
    · exact Or.inl (Or.inl (Or.inr h))
    · exact Or.inl (Or.inr h)
  · rintro ((((h | ⟨f, hf, h⟩) | h) | h) | ⟨f, hf, h⟩)
    · exact Or.inl (Or.inl (Or.inl h))
    · exact Or.inl (Or.inl (Or.inr ⟨f, hf, Or.inr h⟩))
    · exact Or.inl (Or.inr h)
    · exact Or.inr h
    · exact Or.inl (Or.inl (Or.inr ⟨f, hf, Or.inl h⟩))

theorem TypeDefinition.mem_uses_of_convert {mode : Mode} {d : TypeDefinition Field} {name : String}
    (h : name ∈ (d.convert mode).uses) : name ∈ d.uses := by
  simp only [uses, convert, directives_mapFields, fields_mapFields, values_mapFields,
    inputFields_mapFields, List.mem_append, List.flatMap_map, Field.uses_convert,
    List.mem_flatMap] at h ⊢
  rcases h with ((h | ⟨f, hf, h⟩) | h) | h
  · exact Or.inl (Or.inl (Or.inl h))
  · refine Or.inl (Or.inl (Or.inr ⟨f, hf, ?_⟩))
    rw [Field.uses, List.mem_append, List.mem_append]
    exact h.imp Or.inl List.mem_flatMap.2
  · exact Or.inl (Or.inr h)
  · exact Or.inr h

namespace Schema

variable {s : Schema} {mode : Mode} {name : String}

theorem declares_convert_iff :
    (s.convert mode).Declares name ↔ name ≠ semanticNonNullName ∧ s.Declares name := by
  have hdirs : (s.convert mode).directiveDefinitions =
      s.directiveDefinitions.erase semanticNonNullName := rfl
  rw [Declares, Declares, hdirs, Registry.keys_erase, List.mem_filter, decide_eq_true_iff]
  constructor
  · rintro (⟨hmem, hne⟩ | hbuiltin)
    · exact ⟨hne, Or.inl hmem⟩
    · refine ⟨?_, Or.inr hbuiltin⟩
      rintro rfl
      revert hbuiltin
      decide
  · rintro ⟨hne, hmem | hbuiltin⟩
    · exact Or.inl ⟨hmem, hne⟩
    · exact Or.inr hbuiltin

theorem uses_convert (mode : Mode) (s : Schema) :
    (s.convert mode).uses = directiveNames s.directives ++
      (s.types.filterKeys fun key => !isIntrospectionName key).values.flatMap
        (fun d => (d.convert mode).uses) ++
      (s.directiveDefinitions.erase semanticNonNullName).values.flatMap
        DirectiveDefinition.uses := by
  have hvalues : (s.convert mode).types.values =
      (s.types.filterKeys fun key => !isIntrospectionName key).values.map
        (TypeDefinition.convert mode) := by
    rw [types_convert, Registry.values, Registry.values, Registry.map, List.map_map, List.map_map]
    rfl
  rw [uses, hvalues, List.flatMap_map]
  rfl

/-- A converted schema uses what is not on output fields of the source, and what stays on them. -/
theorem mem_uses_convert :
    name ∈ (s.convert mode).uses ↔
      name ∈ s.usesBesideFields ∨
      ∃ d ∈ (s.types.filterKeys fun key => !isIntrospectionName key).values,
        ∃ f ∈ d.fields, name ∈ directiveNames f.directives := by
  simp only [uses_convert, usesBesideFields, List.mem_append, List.mem_flatMap,
    TypeDefinition.mem_uses_convert]
  constructor
  · rintro ((h | ⟨d, hd, h | h⟩) | h)
    · exact Or.inl (Or.inl (Or.inl h))
    · exact Or.inl (Or.inl (Or.inr ⟨d, hd, h⟩))
    · exact Or.inr ⟨d, hd, h⟩
    · exact Or.inl (Or.inr h)
  · rintro (((h | ⟨d, hd, h⟩) | h) | ⟨d, hd, h⟩)
    · exact Or.inl (Or.inl h)
    · exact Or.inl (Or.inr ⟨d, hd, Or.inl h⟩)
    · exact Or.inr h
    · exact Or.inl (Or.inr ⟨d, hd, Or.inr h⟩)

theorem mem_uses_of_convert (h : name ∈ (s.convert mode).uses) : name ∈ s.uses := by
  simp only [uses_convert, List.mem_append, List.mem_flatMap] at h
  rw [uses, List.mem_append, List.mem_append]
  rcases h with (h | ⟨d, hd, h⟩) | ⟨d, hd, h⟩
  · exact Or.inl (Or.inl h)
  · refine Or.inl (Or.inr (List.mem_flatMap.2 ⟨d, ?_, TypeDefinition.mem_uses_of_convert h⟩))
    exact Registry.values_filterKeys_subset _ _ hd
  · refine Or.inr (List.mem_flatMap.2 ⟨d, ?_, h⟩)
    exact Registry.values_filterKeys_subset _ _ hd

/-- **When no use is left without a declaration.** If every directive in use in a loaded schema may
be used, then this holds of the converted schema exactly if the source does not apply
`@semanticNonNull` to anything but output fields. -/
theorem declaresUses_convert_iff {text : String} (htext : ofText text = .ok s)
    (huses : s.DeclaresUses) (mode : Mode) :
    (s.convert mode).DeclaresUses ↔ semanticNonNullName ∉ s.usesBesideFields := by
  obtain ⟨document, _, hdoc⟩ := ofText_eq_ok_iff.1 htext
  have hlift := isLifted_ofDocument hdoc
  constructor
  · intro h hmem
    have hdeclared := h semanticNonNullName (mem_uses_convert.2 (Or.inl hmem))
    exact (declares_convert_iff.1 hdeclared).1 rfl
  · intro h name hname
    refine declares_convert_iff.2 ⟨?_, huses name (mem_uses_of_convert hname)⟩
    rintro rfl
    rcases mem_uses_convert.1 hname with hbeside | ⟨d, hd, f, hf, hdirs⟩
    · exact h hbeside
    · -- the loader has taken `@semanticNonNull` off every output field
      obtain ⟨e, he, rfl⟩ := List.mem_map.1 (Registry.values_filterKeys_subset _ _ hd)
      obtain ⟨directive, hdirective, hsemantic⟩ := List.mem_map.1 hdirs
      have hnot := hlift e he f hf directive hdirective
      simp [Directive.isSemantic, hsemantic] at hnot

/-- Directives in many places, `@semanticNonNull` on an output field only. -/
def semanticOnField : String :=
  "directive @semanticNonNull on FIELD_DEFINITION
directive @tag on OBJECT
type Query @tag \x7b a(b: Int @deprecated): Int @semanticNonNull \x7d"

theorem declaresUses_convert_semanticOnField :
    ∃ s, ofText semanticOnField = .ok s ∧ s.DeclaresUses ∧
      semanticNonNullName ∈ s.uses ∧ (s.convert .nullable).DeclaresUses := by
  have hpasses : textPasses semanticOnField (fun s => decide (s.DeclaresUses ∧
      semanticNonNullName ∈ s.uses ∧ semanticNonNullName ∉ s.usesBesideFields)) = true := by
    decide +kernel
  obtain ⟨s, htext, hs⟩ := exists_of_textPasses hpasses
  obtain ⟨huses, hmem, hbeside⟩ := of_decide_eq_true hs
  exact ⟨s, htext, huses, hmem, (declaresUses_convert_iff htext huses .nullable).2 hbeside⟩

/-- An object with `@semanticNonNull`, which its definition allows. -/
def semanticOnObject : String :=
  "directive @semanticNonNull on FIELD_DEFINITION | OBJECT
type Query @semanticNonNull \x7b a: Int \x7d"

/-- The use on the object stays when the definition goes. -/
theorem not_declaresUses_convert_semanticOnObject :
    ∃ s, ofText semanticOnObject = .ok s ∧ s.DeclaresUses ∧
      ∀ mode, ¬ (s.convert mode).DeclaresUses := by
  have hpasses : textPasses semanticOnObject (fun s => decide (s.DeclaresUses ∧
      ¬ (s.convert .strict).DeclaresUses ∧ ¬ (s.convert .nullable).DeclaresUses)) = true := by
    decide +kernel
  obtain ⟨s, htext, hs⟩ := exists_of_textPasses hpasses
  obtain ⟨huses, hstrict, hnullable⟩ := of_decide_eq_true hs
  refine ⟨s, htext, huses, fun mode => ?_⟩
  cases mode with
  | strict => exact hstrict
  | nullable => exact hnullable

end Schema

end SemanticNullability
