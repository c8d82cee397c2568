import SemanticNullability.Proofs.Extension
import SemanticNullability.Proofs.Reading
/-!
# When the schema block is written

A document may leave the schema block out, and then a reader finds the root types by convention and no
directives of the schema. `Schema.needsBlock` decides before anything is read, from the roots and
registered types alone; `schema_mem_toDocument_iff` says that it decides right: the block is there
exactly if the same document without it would be read with other roots or other directives.
-/
namespace SemanticNullability

/-- The document without its schema block. -/
def Document.withoutBlock (document : Document) : Document :=
  document.filter fun d => d.block?.isNone

namespace Schema

variable {s : Schema}

theorem block?_eq_none_of_mem {d : Definition} (h : d ∈ s.writtenDefinitions) : d.block? = none := by
  rcases List.mem_append.1 h with h | h
  · obtain ⟨_, _, rfl⟩ := List.mem_map.1 h
    rfl
  · obtain ⟨_, _, rfl⟩ := List.mem_map.1 h
    rfl

/-- The block stands before all definitions, and only there. -/
theorem withoutBlock_document (s : Schema) : s.document.withoutBlock = s.writtenDefinitions := by
  have hblock : (s.block?.toList.map Definition.schema).filter (fun d => d.block?.isNone) = [] := by
    refine List.filter_eq_nil_iff.2 fun d hd => ?_
    obtain ⟨block, _, rfl⟩ := List.mem_map.1 hd
    exact Bool.false_ne_true
  have hdefinitions : s.writtenDefinitions.filter (fun d => d.block?.isNone) =
      s.writtenDefinitions := by
    refine List.filter_eq_self.2 fun d hd => ?_
    rw [block?_eq_none_of_mem hd, Option.isNone_none]
  rw [Document.withoutBlock, document_eq_append, List.filter_append, hblock, hdefinitions,
    List.nil_append]

theorem schema_mem_document_iff : (∃ block, .schema block ∈ s.document) ↔ s.needsBlock = true := by
  have hnot : ∀ block, .schema block ∉ s.writtenDefinitions := by
    intro block hmem
    cases block?_eq_none_of_mem hmem
  rw [document_eq_append]
  simp only [List.mem_append, hnot, or_false, block?]
  cases s.needsBlock <;> simp

/-- What a reader finds without the block: the roots of convention, and no directives. -/
theorem exists_ofDocument_writtenDefinitions (h : s.IsNamed) :
    ∃ read, ofDocument s.writtenDefinitions = .ok read ∧ read.roots = s.conventionalRoots ∧
      read.directives = [] := by
  refine ⟨_, ofDocument_writtenDefinitions h none, ?_, rfl⟩
  exact conventionalRoots_of_map rfl TypeDefinition.kind_reread

/-- **When the schema block is written.** A schema whose definitions bear their own names, that has
neither levels nor markers, and in which a root of the conventional name is an object, is written with
a block exactly if its document without a block would be read with other roots or other directives of
the schema. -/
theorem schema_mem_toDocument_iff (hnamed : s.IsNamed) (hres : s.IsResolved)
    (hobj : s.HasConventionalObjects) :
    ∃ document read, s.toDocument = .ok document ∧
      ofDocument document.withoutBlock = .ok read ∧
      ((∃ block, .schema block ∈ document) ↔
        read.roots ≠ s.roots ∨ read.directives ≠ s.directives) := by
  obtain ⟨read, hread, hroots, hdirectives⟩ := exists_ofDocument_writtenDefinitions hnamed
  refine ⟨s.document, read, toDocument_eq hres, ?_, ?_⟩
  · rw [withoutBlock_document]
    exact hread
  · rw [schema_mem_document_iff, needsBlock_iff hobj, hroots, hdirectives, or_comm]
    exact or_congr Iff.rfl ne_comm

/-- A schema with or without a subscription root, of a name that is not the conventional one. What
bears the name of the mutation root is no object, and a field still has a `@semanticNonNull` among its
directives. -/
def withEvents (subscription : Option String) : Schema where
  roots := ⟨some "Query", none, subscription⟩
  directives := []
  types :=
    ⟨[("Query", .object ⟨"Query", none, [], [],
        [{ Field.ofType "ids" (.list (.named "ID")) with directives := [⟨"semanticNonNull", []⟩] }]⟩),
      ("Mutation", .interface ⟨"Mutation", none, [], [], [Field.ofType "count" (.named "Int")]⟩),
      ("Events", .object ⟨"Events", none, [], [], [Field.ofType "at" (.named "Int")]⟩)],
      by decide⟩
  directiveDefinitions := ∅

theorem schema_mem_toDocument_iff_withEvents :
    (∃ document, (withEvents none).toDocument = .ok document ∧ ∀ block, .schema block ∉ document) ∧
    ∃ document read, (withEvents (some "Events")).toDocument = .ok document ∧
      ofDocument document.withoutBlock = .ok read ∧ read.roots.get? .subscription = none ∧
      ∃ block, .schema block ∈ document := by
  have hres : ∀ subscription, (withEvents subscription).IsResolved := by
    intro subscription e he f hf
    simp only [withEvents, List.mem_cons, List.not_mem_nil, or_false] at he
    rcases he with rfl | rfl | rfl <;> obtain rfl := List.mem_singleton.1 hf <;> exact ⟨rfl, rfl⟩
  constructor
  · have hobj : (withEvents none).HasConventionalObjects := by
      intro op
      cases op <;> decide
    obtain ⟨document, read, hdocument, hread, hiff⟩ :=
      schema_mem_toDocument_iff ⟨by decide, by decide⟩ (hres none) hobj
    have hsame : read.roots = (withEvents none).roots ∧ read.directives = [] := by
      cases hdocument
      cases hread
      exact ⟨rfl, rfl⟩
    refine ⟨document, hdocument, fun block hblock => ?_⟩
    rcases hiff.1 ⟨block, hblock⟩ with hroots | hdirectives
    · exact hroots hsame.1
    · exact hdirectives hsame.2
  · have hobj : (withEvents (some "Events")).HasConventionalObjects := by
      intro op
      cases op <;> decide
    obtain ⟨document, read, hdocument, hread, hiff⟩ :=
      schema_mem_toDocument_iff ⟨by decide, by decide⟩ (hres (some "Events")) hobj
    have hlost : read.roots.get? .subscription = none := by
      cases hdocument
      cases hread
      rfl
    refine ⟨document, read, hdocument, hread, hlost, hiff.2 (.inl fun heq => ?_)⟩
    rw [heq] at hlost
    cases hlost

end Schema

end SemanticNullability
