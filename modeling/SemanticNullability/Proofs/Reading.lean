import Mathlib.Tactic.ByContra
import SemanticNullability.Schema.OfDocument
import SemanticNullability.Proofs.Registry
import SemanticNullability.Proofs.Writing
/-!
# What is written reads back

A document of definitions with distinct names is read entry by entry, and each entry is bound behind
those before it, so the registries are rebuilt in their order (`foldlM_entries`). What a reader makes
of the fields is `Field.ofWritten` of what was written, which is the field itself. The root types
travel in the block or by convention; the block is there when convention would find others
(`conventionalRoots_eq`). Together this is `ofDocument_toDocument`: the document of a schema reads
back as the schema.
-/
namespace SemanticNullability

/-! ## Reading entry by entry -/

namespace Registry

variable {α β σ ε : Type}

theorem foldlM_insert {step : σ → String × α → Except ε σ} {embed : Registry β → σ} {value : α → β}
    {l : List (String × α)} (hl : (l.map Prod.fst).Nodup)
    (hstep : ∀ r, ∀ e ∈ l, r.contains e.1 = false →
      step (embed r) e = .ok (embed (r.insert e.1 (value e.2))))
    (r : Registry β) (hr : ∀ e ∈ l, r.contains e.1 = false) :
    l.foldlM step (embed r) =
      .ok (embed ((l.map fun e => (e.1, value e.2)).foldl (fun acc e => acc.insert e.1 e.2) r)) := by
  induction l generalizing r with
  | nil => rfl
  | cons e rest ih =>
    obtain ⟨hnot, hnodup⟩ := List.nodup_cons.1 hl
    have hrest : ∀ e' ∈ rest, (r.insert e.1 (value e.2)).contains e'.1 = false := by
      intro e' he'
      have hne : e'.1 ≠ e.1 := fun h => hnot (h ▸ List.mem_map_of_mem (f := Prod.fst) he')
      rw [contains_insert, hr e' (List.mem_cons_of_mem e he'), Bool.false_or]
      exact beq_eq_false_iff_ne.2 hne
    rw [List.foldlM_cons, hstep r e List.mem_cons_self (hr e List.mem_cons_self)]
    exact ih hnodup (fun r' e' he' => hstep r' e' (List.mem_cons_of_mem e he')) _ hrest

/-- Reading the entries of a registry, each into the place `embed` of a registry, rebuilds the
registry of what is read. -/
theorem foldlM_entries {step : σ → String × α → Except ε σ} (embed : Registry β → σ) (value : α → β)
    (s : Registry α)
    (hstep : ∀ r, ∀ e ∈ s.entries, r.contains e.1 = false →
      step (embed r) e = .ok (embed (r.insert e.1 (value e.2)))) :
    s.entries.foldlM step (embed ∅) = .ok (embed (s.map value)) := by
  rw [foldlM_insert s.nodup hstep ∅ fun _ _ => rfl]
  have hall : (∅ : Registry β).insertAll (s.map value) = s.map value := insertAll_empty _
  exact congrArg (fun r => Except.ok (embed r)) hall

end Registry

/-! ## Reading what was written -/

/-- No directive of the field is `@semanticNonNull`. -/
def Field.IsLifted (f : Field) : Prop := ∀ d ∈ f.directives, d.isSemantic = false

theorem Field.ofWritten_written {f : Field} (hres : f.IsResolved) (hlift : f.IsLifted) :
    Field.ofWritten f.written = f := by
  have hdirs : (f.directives.filter fun d => !d.isSemantic) = f.directives := by
    refine List.filter_eq_self.2 fun d hd => ?_
    rw [hlift d hd, Bool.not_false]
  have hnone : f.directives.find? Directive.isSemantic = none := by
    refine List.find?_eq_none.2 fun d hd => ?_
    rw [hlift d hd]
    exact Bool.false_ne_true
  have htype := TypeExpr.ofWritten_written hres.unmarked
  simp only [Field.ofWritten, Field.written, hdirs, hnone, htype, Option.map_none]
  rw [← hres.unannotated]

/-- A definition as it is read after it has been written. -/
def TypeDefinition.reread (d : TypeDefinition Field) : TypeDefinition Field :=
  (d.mapFields Field.written).mapFields Field.ofWritten

theorem TypeDefinition.reread_eq_self {d : TypeDefinition Field}
    (h : ∀ f ∈ d.fields, f.IsResolved ∧ f.IsLifted) : d.reread = d := by
  rw [reread, mapFields_mapFields]
  exact mapFields_eq_self fun f hf => Field.ofWritten_written (h f hf).1 (h f hf).2

@[simp] theorem TypeDefinition.kind_reread (d : TypeDefinition Field) : d.reread.kind = d.kind := by
  rw [reread, kind_mapFields, kind_mapFields]

namespace Schema

/-- Every definition is registered under its own name. -/
structure IsNamed (s : Schema) : Prop where
  types : ∀ e ∈ s.types.entries, e.1 = e.2.name
  directives : ∀ e ∈ s.directiveDefinitions.entries, e.1 = e.2.name

def IsLifted (s : Schema) : Prop := ∀ e ∈ s.types.entries, ∀ f ∈ e.2.fields, f.IsLifted

/-- A root type that bears the conventional name of its operation is an object. -/
def HasConventionalObjects (s : Schema) : Prop :=
  ∀ op : Operation, s.roots.get? op = some op.typeName → s.hasObject op.typeName = true

/-- The directive definitions and types of a schema, as a document writes them. -/
def writtenDefinitions (s : Schema) : Document :=
  s.directiveDefinitions.values.map Definition.directive ++
    s.types.values.map fun d => Definition.type (d.mapFields Field.written)

theorem document_eq_append (s : Schema) :
    s.document = s.block?.toList.map Definition.schema ++ s.writtenDefinitions :=
  List.append_assoc ..

theorem foldlM_add_directives {s : Schema} (h : s.IsNamed) (block : Option SchemaBlock) :
    (s.directiveDefinitions.values.map Definition.directive).foldlM Definitions.add ⟨∅, ∅, block⟩ =
      .ok ⟨∅, s.directiveDefinitions, block⟩ := by
  have hid : s.directiveDefinitions.map id = s.directiveDefinitions :=
    Registry.map_eq_self fun _ _ => rfl
  have hread : s.directiveDefinitions.entries.foldlM
      (fun acc e => Definitions.add acc (Definition.directive e.2)) ⟨∅, ∅, block⟩ =
        .ok ⟨∅, s.directiveDefinitions.map id, block⟩ := by
    refine Registry.foldlM_entries (fun r => (⟨∅, r, block⟩ : Definitions)) id
      s.directiveDefinitions fun r e he hnew => ?_
    rw [h.directives e he] at hnew ⊢
    simp only [Definitions.add, hnew]
    rfl
  rw [hid] at hread
  rw [Registry.values, List.map_map, List.foldlM_map]
  exact hread

theorem foldlM_add_types {s : Schema} (h : s.IsNamed) (directives : Registry DirectiveDefinition)
    (block : Option SchemaBlock) :
    (s.types.values.map fun d => Definition.type (d.mapFields Field.written)).foldlM
        Definitions.add ⟨∅, directives, block⟩ =
      .ok ⟨s.types.map TypeDefinition.reread, directives, block⟩ := by
  rw [Registry.values, List.map_map, List.foldlM_map]
  refine Registry.foldlM_entries (fun r => (⟨r, directives, block⟩ : Definitions))
    TypeDefinition.reread s.types fun r e he hnew => ?_
  rw [h.types e he] at hnew ⊢
  simp only [Function.comp, Definitions.add, TypeDefinition.name_mapFields, hnew]
  rfl

theorem filterMap_extension?_writtenDefinitions (s : Schema) :
    s.writtenDefinitions.filterMap Definition.extension? = [] := by
  refine List.filterMap_eq_nil_iff.2 fun d hd => ?_
  rcases List.mem_append.1 hd with hd | hd
  · obtain ⟨_, _, rfl⟩ := List.mem_map.1 hd
    rfl
  · obtain ⟨_, _, rfl⟩ := List.mem_map.1 hd
    rfl

/-- **The definitions of a document.** Behind a block or without one, the written definitions of a
schema are read as its registries, each type reread. -/
theorem ofDocument_writtenDefinitions {s : Schema} (h : s.IsNamed) (block : Option SchemaBlock) :
    ofDocument (block.toList.map Definition.schema ++ s.writtenDefinitions) =
      .ok (withBlock ⟨Roots.none, [], s.types.map TypeDefinition.reread, s.directiveDefinitions⟩
        block) := by
  have hblock : (block.toList.map Definition.schema).foldlM Definitions.add Definitions.empty =
      .ok ⟨∅, ∅, block⟩ := by
    cases block <;> rfl
  have hdefs : Definitions.ofDocument
      (block.toList.map Definition.schema ++ s.writtenDefinitions) =
        .ok ⟨s.types.map TypeDefinition.reread, s.directiveDefinitions, block⟩ := by
    rw [Definitions.ofDocument, List.foldlM_append, hblock]
    show s.writtenDefinitions.foldlM Definitions.add ⟨∅, ∅, block⟩ = _
    rw [writtenDefinitions, List.foldlM_append, foldlM_add_directives h]
    exact foldlM_add_types h _ block
  have hext : (block.toList.map Definition.schema ++ s.writtenDefinitions).filterMap
      Definition.extension? = [] := by
    rw [List.filterMap_append, filterMap_extension?_writtenDefinitions]
    cases block <;> rfl
  rw [ofDocument, hdefs, hext]
  rfl

/-! ## The root types -/

/-- Where the same names stand for the same kinds, the same names stand for objects. -/
theorem hasObject_of_map {s t : Schema} {g : TypeDefinition Field → TypeDefinition Field}
    (htypes : t.types = s.types.map g) (hkind : ∀ d, (g d).kind = d.kind) (name : String) :
    t.hasObject name = s.hasObject name := by
  rw [hasObject, hasObject, type?, type?, htypes, Registry.find?_map]
  cases s.types.find? name with
  | none => rfl
  | some d =>
    show (g d).isObject = d.isObject
    rw [TypeDefinition.isObject, hkind, TypeDefinition.isObject]

theorem conventionalRoots_of_map {s t : Schema} {g : TypeDefinition Field → TypeDefinition Field}
    (htypes : t.types = s.types.map g) (hkind : ∀ d, (g d).kind = d.kind) :
    t.conventionalRoots = s.conventionalRoots := by
  rw [conventionalRoots, conventionalRoots]
  simp only [hasObject_of_map htypes hkind]

/-- A root is unusual if convention finds another, or one where there is none, or none where there is
one. -/
theorem hasUnusualRoot_iff {s : Schema} {op : Operation}
    (hobj : s.roots.get? op = some op.typeName → s.hasObject op.typeName = true) :
    s.hasUnusualRoot op = true ↔ s.conventionalRoots.get? op ≠ s.roots.get? op := by
  rw [hasUnusualRoot, conventionalRoots, Roots.get?_ofFn]
  cases hget : s.roots.get? op with
  | none => by_cases hobject : s.hasObject op.typeName = true <;> simp [hobject]
  | some name =>
    by_cases hname : name = op.typeName
    · subst hname
      simp [hobj hget]
    · by_cases hobject : s.hasObject op.typeName = true
      · simp [hobject, hname, Ne.symm hname]
      · simp [hobject, hname]

/-- A block is needed for directives of the schema, and for roots that convention does not find. -/
theorem needsBlock_iff {s : Schema} (hobj : s.HasConventionalObjects) :
    s.needsBlock = true ↔ s.directives ≠ [] ∨ s.conventionalRoots ≠ s.roots := by
  have hroots : Operation.all.any s.hasUnusualRoot = true ↔ s.conventionalRoots ≠ s.roots := by
    rw [List.any_eq_true]
    constructor
    · rintro ⟨op, -, hop⟩ heq
      exact (hasUnusualRoot_iff (hobj op)).1 hop (by rw [heq])
    · intro hne
      by_contra hnone
      refine hne (Roots.ext_get? fun op => ?_)
      by_contra hop
      exact hnone ⟨op, Operation.mem_all op, (hasUnusualRoot_iff (hobj op)).2 hop⟩
  rw [needsBlock, Bool.or_eq_true, hroots]
  simp

/-- Without need for a block, convention finds the root types that the schema has. -/
theorem conventionalRoots_eq {s : Schema} (hobj : s.HasConventionalObjects)
    (hneed : s.needsBlock = false) : s.conventionalRoots = s.roots := by
  by_contra hne
  rw [(needsBlock_iff hobj).2 (.inr hne)] at hneed
  cases hneed

/-- The definitions come back as they are, and the block with them, or what convention puts in its
place. -/
theorem ofDocument_document {s : Schema} (hnamed : s.IsNamed) (hlift : s.IsLifted)
    (hres : s.IsResolved) (hobj : s.HasConventionalObjects) : ofDocument s.document = .ok s := by
  have htypes : s.types.map TypeDefinition.reread = s.types :=
    Registry.map_eq_self fun e he =>
      TypeDefinition.reread_eq_self fun f hf => ⟨hres e he f hf, hlift e he f hf⟩
  rw [document_eq_append, ofDocument_writtenDefinitions hnamed, htypes, block?]
  cases hneed : s.needsBlock with
  | true => rfl
  | false =>
    have hroots := conventionalRoots_eq hobj hneed
    have hdirs : s.directives = [] := by
      rw [needsBlock, Bool.or_eq_false_iff] at hneed
      simpa using hneed.1
    have hself : (⟨s.conventionalRoots, [], s.types, s.directiveDefinitions⟩ : Schema) =
        ⟨s.roots, s.directives, s.types, s.directiveDefinitions⟩ := by rw [hroots, hdirs]
    exact congrArg Except.ok hself

/-- **The document of a schema reads back as the schema.** -/
theorem ofDocument_toDocument {s : Schema} (hnamed : s.IsNamed) (hlift : s.IsLifted)
    (hres : s.IsResolved) (hobj : s.HasConventionalObjects) :
    ∃ document, s.toDocument = .ok document ∧ ofDocument document = .ok s :=
  ⟨s.document, toDocument_eq hres, ofDocument_document hnamed hlift hres hobj⟩

/-- A schema with an object under a conventional name that is no root type, so that its document
needs a block. -/
def unusedMutation : Schema where
  roots := ⟨some "Query", none, none⟩
  directives := []
  types :=
    ⟨[("Query", .object ⟨"Query", none, [], [],
        [{ Field.ofType "ids" (.nonNull (.list (.nonNull (.named "ID")))) with
            description := some "all of them"
            directives := [⟨"deprecated", []⟩] }]⟩),
      ("Mutation", .object ⟨"Mutation", none, [], [], [Field.ofType "count" (.named "Int")]⟩)],
      by decide⟩
  directiveDefinitions := ⟨[("tag", ⟨"tag", none, [], true, [.fieldDefinition]⟩)], by decide⟩

theorem ofDocument_toDocument_unusedMutation :
    (unusedMutation.IsNamed ∧ unusedMutation.IsLifted ∧ unusedMutation.IsResolved ∧
      unusedMutation.HasConventionalObjects) ∧
    unusedMutation.needsBlock = true ∧
    ∃ document, unusedMutation.toDocument = .ok document ∧
      ofDocument document = .ok unusedMutation := by
  have hnamed : unusedMutation.IsNamed := ⟨by decide, by decide⟩
  have hlift : unusedMutation.IsLifted := by
    unfold IsLifted Field.IsLifted
    decide
  have hres : unusedMutation.IsResolved := by
    intro e he f hf
    rcases List.mem_cons.1 he with rfl | he
    · obtain rfl := List.mem_singleton.1 hf
      exact ⟨rfl, rfl⟩
    · obtain rfl := List.mem_singleton.1 he
      obtain rfl := List.mem_singleton.1 hf
      exact ⟨rfl, rfl⟩
  have hobj : unusedMutation.HasConventionalObjects := by
    intro op
    cases op <;> decide
  exact ⟨⟨hnamed, hlift, hres, hobj⟩, by decide, ofDocument_toDocument hnamed hlift hres hobj⟩

end Schema

end SemanticNullability
