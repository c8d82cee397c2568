import SemanticNullability.Proofs.Clean
import SemanticNullability.Proofs.Loaded
import SemanticNullability.Proofs.Parsed
/-!
# The form of a loaded schema

Lookups go by the keys of a registry and reports by the names of definitions, and conversion takes the
levels of a field for all there is of `@semanticNonNull`. `Schema.IsWellFormed` is what these rely on,
and every schema that comes from a document has it, however its extensions stand
(`isWellFormed_ofDocument`). The one thing asked of the document is that no non-null wrapper stands
directly inside another, which is so in every document that is parsed
(`Document.isSingle_of_ofText?`).
-/
namespace SemanticNullability

/-! ## Doubled wrappers in documents -/

/-- Whether a non-null wrapper stands directly inside another. -/
def WrittenType.hasDoubleNonNull : WrittenType → Bool
  | .named _ => false
  | .list item => item.hasDoubleNonNull
  | .nonNull inner => inner.isNonNull || inner.hasDoubleNonNull

theorem TypeExpr.isNonNull_ofWritten (t : WrittenType) : (ofWritten t).isNonNull = t.isNonNull := by
  cases t <;> rfl

theorem TypeExpr.hasDoubleNonNull_ofWritten (t : WrittenType) :
    (ofWritten t).hasDoubleNonNull = t.hasDoubleNonNull := by
  induction t with
  | named name => rfl
  | list item ih => exact ih
  | nonNull inner ih =>
    rw [ofWritten, hasDoubleNonNull, WrittenType.hasDoubleNonNull, isNonNull_ofWritten, ih]

theorem WrittenType.Fits.hasDoubleNonNull {depth : Nat} {t : WrittenType} (h : t.Fits depth) :
    t.hasDoubleNonNull = false := by
  induction t generalizing depth with
  | named name => rfl
  | list item ih =>
    cases depth with
    | zero => exact absurd h id
    | succ depth => exact ih h
  | nonNull inner ih =>
    have hinner : inner.isNonNull = false ∧ inner.Fits depth := by
      cases depth <;> exact h
    rw [WrittenType.hasDoubleNonNull, hinner.1, ih hinner.2]
    rfl

namespace Document

/-- No field that a document writes, in a definition or in an extension, has a type with a doubled
non-null wrapper. -/
def IsSingle (document : Document) : Prop :=
  ∀ d ∈ document.types ++ document.filterMap Definition.extension?,
    ∀ f ∈ d.fields, f.type.hasDoubleNonNull = false

/-- SDL has no notation for a doubled wrapper. -/
theorem isSingle_of_ofText? {text : String} {document : Document}
    (h : ofText? text = some document) : document.IsSingle := by
  intro d hd f hf
  have hfits : d.Fits WrittenField.Fits Sdl.maxDepth := by
    rcases List.mem_append.1 hd with hd | hd
    · obtain ⟨x, hx, hx'⟩ := List.mem_filterMap.1 hd
      have hxfits := Sdl.fits_of_ofText? h x hx
      cases x <;> cases hx'
      exact hxfits
    · obtain ⟨x, hx, hx'⟩ := List.mem_filterMap.1 hd
      have hxfits := Sdl.fits_of_ofText? h x hx
      cases x <;> cases hx'
      exact hxfits
  obtain ⟨_, hfield⟩ := hfits.fields.exists_depth hf
  exact hfield.type.hasDoubleNonNull

end Document

/-! ## Fields -/

/-- A field as it is loaded: no directive of it is `@semanticNonNull`, its type has neither a semantic
wrapper nor a doubled one, and its levels are those of a `@semanticNonNull`, each of them once. -/
structure Field.IsWellFormed (f : Field) : Prop where
  lifted : f.IsLifted
  unmarked : f.type.hasMarker = false
  single : f.type.hasDoubleNonNull = false
  levels : ∀ levels, f.semantic = some levels →
    levels.toList.Nodup ∧ ∃ d : Directive, d.isSemantic = true ∧ levels = Levels.ofDirective d

theorem Field.isWellFormed_ofWritten {f : WrittenField} (h : f.type.hasDoubleNonNull = false) :
    (Field.ofWritten f).IsWellFormed where
  lifted := isLifted_ofWritten f
  unmarked := TypeExpr.hasMarker_ofWritten f.type
  single := (TypeExpr.hasDoubleNonNull_ofWritten f.type).trans h
  levels levels hlevels := by
    obtain ⟨d, hd, rfl⟩ := Option.map_eq_some_iff.1 hlevels
    exact ⟨(Levels.ofDirective d).nodup, d, List.find?_some hd, rfl⟩

/-! ## Schemas -/

namespace Schema

/-- A schema as it is loaded: types and directive definitions are registered under their own names,
and the fields are well formed. -/
structure IsWellFormed (s : Schema) : Prop extends s.IsNamed where
  fields : ∀ e ∈ s.types.entries, ∀ f ∈ e.2.fields, f.IsWellFormed

theorem hasObject_iff {s : Schema} {name : String} :
    s.hasObject name = true ↔ ∃ t, s.type? name = some (.object t) := by
  rw [hasObject]
  cases s.type? name with
  | none => simp
  | some d => cases d <;> simp [TypeDefinition.isObject, TypeDefinition.kind]

/-- The roots that convention gives are the registered objects of the conventional names. -/
theorem get?_conventionalRoots {s : Schema} {op : Operation} {name : String} :
    s.conventionalRoots.get? op = some name ↔
      name = op.typeName ∧ ∃ t, s.type? name = some (.object t) := by
  rw [conventionalRoots, Roots.get?_ofFn]
  by_cases hobject : s.hasObject op.typeName = true
  · rw [if_pos hobject, Option.some.injEq]
    constructor
    · rintro rfl
      exact ⟨rfl, hasObject_iff.1 hobject⟩
    · rintro ⟨rfl, -⟩
      rfl
  · rw [if_neg hobject]
    constructor
    · intro h
      cases h
    · rintro ⟨rfl, hobject'⟩
      exact absurd (hasObject_iff.2 hobject') hobject

theorem fields_ofDocument {document : Document} {s : Schema} (h : ofDocument document = .ok s)
    (hsingle : document.IsSingle) :
    ∀ e ∈ s.types.entries, ∀ f ∈ e.2.fields, f.IsWellFormed := by
  intro e he f hf
  obtain ⟨d, hd, w, hw, rfl⟩ := exists_written_of_mem_fields h he hf
  exact Field.isWellFormed_ofWritten (hsingle d hd w hw)

/-- Without a schema block the roots go by convention, and there are no directives of the schema. -/
theorem roots_ofDocument {document : Document} {s : Schema} (h : ofDocument document = .ok s)
    (hblock : ∀ block, .schema block ∉ document) :
    s.directives = [] ∧ ∀ op name, s.roots.get? op = some name ↔
      name = op.typeName ∧ ∃ t, s.type? name = some (.object t) := by
  obtain ⟨block, hs, hread, -, -, -⟩ := ofDocument_eq_ok h
  have hnone : block = none := by
    have hnil : document.filterMap Definition.block? = [] := by
      refine List.filterMap_eq_nil_iff.2 fun x hx => ?_
      cases x with
      | schema b => exact absurd hx (hblock b)
      | type | directive | extend => rfl
    rw [hnil] at hread
    cases block with
    | none => rfl
    | some b => cases hread
  subst hnone
  have hdirectives : s.directives = [] := by
    rw [hs]
    rfl
  have hroots : s.roots = s.conventionalRoots := by
    rw [hs]
    rfl
  refine ⟨hdirectives, fun op name => ?_⟩
  rw [hroots]
  exact get?_conventionalRoots

/-- **The form of a loaded schema.** Types and directive definitions are registered under their own
names; no field has a `@semanticNonNull` among its directives, a semantic wrapper or a doubled
non-null one in its type, or a level twice. Without a schema block the roots are the objects of the
conventional names, each as far as it is registered, and the schema has no directives. -/
theorem isWellFormed_ofDocument {document : Document} {s : Schema}
    (h : ofDocument document = .ok s) (hsingle : document.IsSingle) :
    s.IsWellFormed ∧
    ((∀ block, .schema block ∉ document) →
      s.directives = [] ∧ ∀ op name, s.roots.get? op = some name ↔
        name = op.typeName ∧ ∃ t, s.type? name = some (.object t)) :=
  ⟨⟨isNamed_ofDocument h, fields_ofDocument h hsingle⟩, roots_ofDocument h⟩

/-- An extension before the type that it extends, with a field that is marked twice. `Mutation` is no
object. -/
def extendedQuery : Document :=
  [.extend (.object ⟨"Query", none, [], [], [⟨"names", none, [],
      .nonNull (.list (.nonNull (.named "String"))),
      [⟨"semanticNonNull", [("levels", .list [.int 1, .int 0, .int 1])]⟩, ⟨"deprecated", []⟩,
        ⟨"semanticNonNull", []⟩]⟩]⟩),
    .type (.object ⟨"Query", none, [], [], [⟨"id", none, [], .named "ID", []⟩]⟩),
    .type (.interface ⟨"Mutation", none, [], [], []⟩)]

theorem isWellFormed_ofDocument_extendedQuery :
    ∃ s, ofDocument extendedQuery = .ok s ∧ extendedQuery.IsSingle ∧ s.IsWellFormed ∧
      (∀ block, .schema block ∉ extendedQuery) ∧
      s.roots.get? .query = some "Query" ∧ s.roots.get? .mutation = none ∧
      (s.field? "Query" "names").map (fun f => (f.directives.length, f.semantic)) =
        some (1, some (Levels.ofList [1, 0])) := by
  have hsingle : extendedQuery.IsSingle := by
    unfold Document.IsSingle
    decide
  have hblock : ∀ block, .schema block ∉ extendedQuery := by
    intro block h
    simp [extendedQuery] at h
  obtain ⟨s, hs⟩ : ∃ s, ofDocument extendedQuery = .ok s := ⟨_, rfl⟩
  obtain ⟨hformed, hconventional⟩ := isWellFormed_ofDocument hs hsingle
  obtain ⟨-, hroots⟩ := hconventional hblock
  have hquery := (hroots .query "Query").2
  cases hs
  exact ⟨_, rfl, hsingle, hformed, hblock, hquery ⟨rfl, _, rfl⟩, rfl, rfl⟩

/-- Every schema that is loaded from a text is well formed. -/
theorem isWellFormed_ofText {text : String} {s : Schema} (h : ofText text = .ok s) :
    s.IsWellFormed := by
  obtain ⟨document, hparse, hdocument⟩ := ofText_eq_ok_iff.1 h
  exact ⟨isNamed_ofDocument hdocument,
    fields_ofDocument hdocument (Document.isSingle_of_ofText? hparse)⟩

end Schema

end SemanticNullability
