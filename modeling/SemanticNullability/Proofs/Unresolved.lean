import SemanticNullability.Proofs.Depth
import SemanticNullability.Proofs.Extension
import SemanticNullability.Proofs.Writing
/-!
# The field that stands in the way

A schema is not written as long as a field has levels, be they none at all, or a semantic marker at
some list depth. Types are gone through in the order of registration and the fields of each in their
order, and the error names the first such field (`Schema.toDocument_eq_error_iff`). Otherwise each type
in the document reads back as the type of its field. The translation of types would make a marker an
enforced wrapper (`TypeExpr.written`); but such a type is never translated, since `Field.toWritten`
looks for a marker first (`Field.toWritten_eq_ite`). `Schema.toDocument_refuses` is all of this
together.
-/
namespace SemanticNullability

/-! ## Fields -/

namespace Field

/-- A field that has levels, or a marker at some list depth. -/
def IsUnresolved (f : Field) : Prop :=
  (∃ levels, f.semantic = some levels) ∨ ∃ l, .semantic ∈ f.type.wrappers l

variable {f : Field} {owner : String} {err : UnresolvedField}

theorem isUnresolved_iff :
    f.IsUnresolved ↔ (f.semantic.isSome || f.type.hasMarker) = true := by
  rw [IsUnresolved, ← Option.isSome_iff_exists, ← TypeExpr.hasMarker_iff, Bool.or_eq_true]

theorem not_isUnresolved_iff : ¬ f.IsUnresolved ↔ f.IsResolved := by
  rw [isUnresolved_iff, Bool.not_eq_true, Bool.or_eq_false_iff, Option.isSome_eq_false_iff,
    Option.isNone_iff_eq_none]
  constructor
  · rintro ⟨hlevels, hmark⟩
    exact ⟨hlevels, hmark⟩
  · rintro ⟨hlevels, hmark⟩
    exact ⟨hlevels, hmark⟩

/-- The check comes first, and then the translation, of whatever is in the type. -/
theorem toWritten_eq_ite (f : Field) (owner : String) :
    f.toWritten owner =
      if f.semantic.isSome || f.type.hasMarker then .error ⟨owner, f.name⟩ else .ok f.written := by
  rw [toWritten]
  cases hlevels : f.semantic with
  | some levels => rfl
  | none =>
    cases hmark : f.type.hasMarker with
    | true =>
      rw [TypeExpr.written?_eq_none_iff.2 hmark]
      rfl
    | false =>
      rw [TypeExpr.written?_eq_some_written hmark]
      rfl

theorem toWritten_of_isUnresolved (h : f.IsUnresolved) (owner : String) :
    f.toWritten owner = .error ⟨owner, f.name⟩ := by
  rw [toWritten_eq_ite, if_pos (isUnresolved_iff.1 h)]

theorem exists_toWritten_eq_ok_iff : (∃ w, f.toWritten owner = .ok w) ↔ ¬ f.IsUnresolved := by
  by_cases h : f.IsUnresolved
  · simp [h, toWritten_of_isUnresolved h]
  · simp [h, toWritten_eq (not_isUnresolved_iff.1 h)]

theorem toWritten_eq_error_iff :
    f.toWritten owner = .error err ↔ f.IsUnresolved ∧ err = ⟨owner, f.name⟩ := by
  by_cases h : f.IsUnresolved
  · simp [h, toWritten_of_isUnresolved h, eq_comm]
  · simp [h, toWritten_eq (not_isUnresolved_iff.1 h)]

end Field

/-! ## Schemas -/

namespace Schema

/-- Whether `f`, a field of `d`, is the first unresolved one: no type that is registered before `d` has
any, and no field before `f` is one. -/
def IsFirstUnresolved (s : Schema) (d : TypeDefinition Field) (f : Field) : Prop :=
  ∃ earlier later before after,
    s.types.values = earlier ++ d :: later ∧ (∀ x ∈ earlier, ∀ g ∈ x.fields, ¬ g.IsUnresolved) ∧
      d.fields = before ++ f :: after ∧ (∀ g ∈ before, ¬ g.IsUnresolved) ∧ f.IsUnresolved

variable {s : Schema} {err : UnresolvedField}

theorem isResolved_iff :
    s.IsResolved ↔ ∀ d ∈ s.types.values, ∀ f ∈ d.fields, ¬ f.IsUnresolved := by
  simp only [IsResolved, Registry.values, List.forall_mem_map, Field.not_isUnresolved_iff]

/-- One definition: its first unresolved field is named, under the name of the definition. -/
theorem mapFieldsM_toWritten_eq_error_iff {d : TypeDefinition Field} :
    d.mapFieldsM Field.toWritten = .error err ↔
      ∃ before f after, d.fields = before ++ f :: after ∧
        (∀ g ∈ before, ¬ g.IsUnresolved) ∧ f.IsUnresolved ∧ err = ⟨d.name, f.name⟩ := by
  simp only [TypeDefinition.mapFieldsM_eq_error_iff, Field.exists_toWritten_eq_ok_iff,
    Field.toWritten_eq_error_iff]

/-- The loop over the types is all that can fail. -/
theorem toDocument_eq_map (s : Schema) :
    s.toDocument =
      (replaceEach (TypeDefinition.mapFieldsM Field.toWritten) s.types.values).map fun types =>
        s.block?.toList.map Definition.schema ++
          s.directiveDefinitions.values.map Definition.directive ++ types.map Definition.type := by
  rw [toDocument]
  cases replaceEach (TypeDefinition.mapFieldsM Field.toWritten) s.types.values <;> rfl

/-- **The first unresolved field decides.** -/
theorem toDocument_eq_error_iff :
    s.toDocument = .error err ↔
      ∃ d f, s.IsFirstUnresolved d f ∧ err = ⟨d.name, f.name⟩ := by
  have hloop : s.toDocument = .error err ↔
      replaceEach (TypeDefinition.mapFieldsM Field.toWritten) s.types.values = .error err := by
    rw [toDocument_eq_map]
    cases replaceEach (TypeDefinition.mapFieldsM Field.toWritten) s.types.values <;>
      simp [Except.map]
  rw [hloop, replaceEach_eq_error_iff]
  simp only [TypeDefinition.exists_mapFieldsM_eq_ok_iff, Field.exists_toWritten_eq_ok_iff,
    mapFieldsM_toWritten_eq_error_iff]
  constructor
  · rintro ⟨earlier, d, later, hsplit, hearlier, before, f, after, hfields, hbefore, hf, herr⟩
    exact ⟨d, f, ⟨earlier, later, before, after, hsplit, hearlier, hfields, hbefore, hf⟩, herr⟩
  · rintro ⟨d, f, ⟨earlier, later, before, after, hsplit, hearlier, hfields, hbefore, hf⟩, herr⟩
    exact ⟨earlier, d, later, hsplit, hearlier, before, f, after, hfields, hbefore, hf, herr⟩

theorem exists_toDocument_eq_ok_iff : (∃ document, s.toDocument = .ok document) ↔ s.IsResolved := by
  constructor
  · rintro ⟨document, hdocument⟩
    rw [toDocument_eq_map] at hdocument
    cases htypes : replaceEach (TypeDefinition.mapFieldsM Field.toWritten) s.types.values with
    | error err =>
      rw [htypes] at hdocument
      cases hdocument
    | ok types =>
      have heach := exists_replaceEach_eq_ok_iff.1 ⟨types, htypes⟩
      simp only [TypeDefinition.exists_mapFieldsM_eq_ok_iff,
        Field.exists_toWritten_eq_ok_iff] at heach
      exact isResolved_iff.2 heach
  · intro hres
    exact ⟨_, toDocument_eq hres⟩

/-- A schema has no document exactly if it has an unresolved field, reachable or not. -/
theorem exists_toDocument_eq_error_iff :
    (∃ err, s.toDocument = .error err) ↔
      ∃ d ∈ s.types.values, ∃ f ∈ d.fields, f.IsUnresolved := by
  have hor : (∃ err, s.toDocument = .error err) ↔ ¬ ∃ document, s.toDocument = .ok document := by
    cases s.toDocument <;> simp
  rw [hor, exists_toDocument_eq_ok_iff, isResolved_iff]
  simp only [not_forall, not_not, exists_prop]

theorem text_eq_error_iff : s.text = .error err ↔ s.toDocument = .error err := by
  rw [text]
  cases s.toDocument <;> simp [Except.map]

/-- The types of a document are the registered ones, in their order, with the fields translated. -/
theorem types_document (s : Schema) :
    s.document.types = s.types.values.map (TypeDefinition.mapFields Field.written) := by
  have hblock : (s.block?.toList.map Definition.schema).filterMap Definition.type? = [] := by
    cases s.block? <;> rfl
  have hdirectives :
      (s.directiveDefinitions.values.map Definition.directive).filterMap Definition.type? = [] := by
    rw [List.filterMap_map]
    exact List.filterMap_eq_nil_iff.2 fun _ _ => rfl
  rw [Document.types, document, List.filterMap_append, List.filterMap_append, hblock, hdirectives,
    List.nil_append, List.nil_append, List.filterMap_map]
  exact congrFun List.filterMap_eq_map s.types.values

/-- **Which schemas are not written.** There is neither a document nor a text exactly if some field of
a registered type has levels, or a marker at some depth; the error is the first such field, under the
name of its type. Otherwise the types are written field by field, and each type of a field, which has
no marker anywhere, reads back as it was. -/
theorem toDocument_refuses (s : Schema) :
    ((∃ err, s.toDocument = .error err) ↔
      ∃ d ∈ s.types.values, ∃ f ∈ d.fields, f.IsUnresolved) ∧
    (∀ err, s.toDocument = .error err ↔
      ∃ d f, s.IsFirstUnresolved d f ∧ err = ⟨d.name, f.name⟩) ∧
    (∀ err, s.text = .error err ↔ s.toDocument = .error err) ∧
    (∀ owner field, (UnresolvedField.mk owner field).message =
      "semantic non-null marker cannot be printed at " ++ owner ++ "." ++ field ++
        "; convert the schema first") ∧
    ∀ document, s.toDocument = .ok document →
      document.types = s.types.values.map (TypeDefinition.mapFields Field.written) ∧
      ∀ d ∈ s.types.values, ∀ f ∈ d.fields,
        TypeExpr.ofWritten f.written.type = f.type ∧ ∀ l, .semantic ∉ f.type.wrappers l := by
  refine ⟨exists_toDocument_eq_error_iff, fun _ => toDocument_eq_error_iff,
    fun _ => text_eq_error_iff, fun _ _ => rfl, fun document hdocument => ?_⟩
  have hres : s.IsResolved := exists_toDocument_eq_ok_iff.1 ⟨document, hdocument⟩
  rw [toDocument_eq hres] at hdocument
  cases hdocument
  refine ⟨types_document s, fun d hd f hf => ?_⟩
  have hfield : f.IsResolved := Field.not_isUnresolved_iff.1 (isResolved_iff.1 hres d hd f hf)
  exact ⟨TypeExpr.ofWritten_written hfield.unmarked,
    TypeExpr.semantic_not_mem_wrappers hfield.unmarked⟩

/-- A schema with an interface that nothing refers to and that is not registered under its own name. -/
def withUnreached (fields : List Field) : Schema where
  roots := ⟨some "Query", none, none⟩
  directives := []
  types :=
    ⟨[("Query", .object ⟨"Query", none, [], [], [Field.ofType "id" (.nonNull (.named "ID"))]⟩),
      ("Other", .interface ⟨"Extra", none, [], [], fields⟩)], by simp⟩
  directiveDefinitions := ∅

/-- Levels that are none come before a marker inside a list. -/
theorem toDocument_refuses_withUnreached :
    let plain := Field.ofType "a" (.nonNull (.list (.named "Int")))
    let annotated := { Field.ofType "b" (.named "Int") with semantic := some (Levels.ofList []) }
    let marked := Field.ofType "c" (.list (.semanticNonNull (.named "Int")))
    (withUnreached [plain, annotated, marked]).text = .error ⟨"Extra", "b"⟩ ∧
    ∃ document, (withUnreached [plain]).toDocument = .ok document ∧
      document.types.map TypeDefinition.name = ["Query", "Extra"] ∧
      TypeExpr.ofWritten plain.written.type = plain.type := by
  intro plain annotated marked
  have hquery : ∀ g ∈ [Field.ofType "id" (.nonNull (.named "ID"))], ¬ g.IsUnresolved := by
    intro g hg
    obtain rfl := List.mem_singleton.1 hg
    exact Field.not_isUnresolved_iff.2 ⟨rfl, rfl⟩
  have hplain : ∀ g ∈ [plain], ¬ g.IsUnresolved := by
    intro g hg
    obtain rfl := List.mem_singleton.1 hg
    exact Field.not_isUnresolved_iff.2 ⟨rfl, rfl⟩
  constructor
  · obtain ⟨-, herror, htext, -⟩ := toDocument_refuses (withUnreached [plain, annotated, marked])
    refine (htext _).2 ((herror _).2 ⟨_, annotated, ⟨[_], [], [plain], [marked], rfl, ?_, rfl,
      hplain, .inl ⟨_, rfl⟩⟩, rfl⟩)
    intro x hx
    obtain rfl := List.mem_singleton.1 hx
    exact hquery
  · obtain ⟨-, -, -, -, hwritten⟩ := toDocument_refuses (withUnreached [plain])
    obtain ⟨document, hdocument⟩ : ∃ document, (withUnreached [plain]).toDocument = .ok document :=
      ⟨_, rfl⟩
    obtain ⟨htypes, hreads⟩ := hwritten document hdocument
    refine ⟨document, hdocument, ?_, ?_⟩
    · rw [htypes]
      rfl
    · exact (hreads _ (List.mem_cons_of_mem _ List.mem_cons_self) plain List.mem_cons_self).1

end Schema

end SemanticNullability
