import SemanticNullability.Proofs.Returned
import SemanticNullability.Proofs.Validation
/-!
# Printing and loading again

The text of a converted schema is loaded as the schema that comes back of it (`Schema.returned`),
unless it has something that a reader refuses: the text of an infinite value or a whole number of too
many digits, or a directive definition without locations. So the text denotes the schema exactly if
every text and every floating-point value in it is kept and every directive definition has a location
(`Schema.IsFaithful`). Texts are not kept in general: quoted text renumbers characters, and block text
loses the white space around its lines.
-/
namespace SemanticNullability

open Sdl (documentPieces tokensOf)

/-! ## The tokens of a written text -/

/-- The tokens of a printed document are those of its pieces. -/
theorem Sdl.ofText?_endLine {pieces : List Piece} (h : Lexes pieces) :
    Token.ofText? (Schema.endLine (Piece.textOf pieces)) = Piece.readings? pieces := by
  obtain ⟨after, hafter, hends, hrun⟩ : ∃ after,
      (Schema.endLine (Piece.textOf pieces)).toList = charsOf pieces ++ after ∧ Ends after ∧
        tokens.run after = some ([], []) := by
    rw [Schema.endLine, Piece.textOf]
    split_ifs
    · exact ⟨[], by rw [String.toList_ofList, List.append_nil], ends_nil, tokens_run_nil⟩
    · refine ⟨['\n'], ?_, ends_cons (by decide) [], ?_⟩
      · rw [String.toList_push, String.toList_ofList]
      · rw [tokens_run_ignored (by decide), tokens_run_nil]
  rw [Token.ofText?, hafter, h.run after hends, hrun]
  cases Piece.readings? pieces <;> simp

/-! ## The document of what comes back -/

namespace TypeDefinition

theorem mapFields_returned (d : TypeDefinition Field) :
    (d.returned Field.returned).mapFields Field.written =
      (d.mapFields Field.written).returned WrittenField.returned := by
  cases d <;> simp [returned, mapFields, FieldedType.mapFields] <;> exact fun _ _ => rfl

theorem fields_returned {φ : Type} (field : φ → φ) (d : TypeDefinition φ) :
    (d.returned field).fields = d.fields.map field := by
  cases d <;> rfl

theorem kind_returned {φ : Type} (field : φ → φ) (d : TypeDefinition φ) :
    (d.returned field).kind = d.kind := by
  cases d <;> rfl

theorem name_returned {φ : Type} (field : φ → φ) (d : TypeDefinition φ) :
    (d.returned field).name = d.name := by
  cases d <;> rfl

end TypeDefinition

namespace Definition

variable {d : Definition}

theorem extension?_returned (h : d.extension? = none) : d.returned.extension? = none := by
  cases d with
  | extend e => cases h
  | _ => rfl

theorem hasNotation_returned_iff (h : d.extension? = none) :
    d.returned.HasNotation ↔ d.HasNotation := by
  cases d with
  | extend e => cases h
  | _ => rfl

end Definition

namespace Schema

variable {s : Schema}

theorem hasObject_returned (s : Schema) (name : String) :
    s.returned.hasObject name = s.hasObject name :=
  hasObject_of_map rfl (TypeDefinition.kind_returned _) name

theorem block?_returned (s : Schema) : s.returned.block? = s.block?.map SchemaBlock.returned := by
  have hunusual : s.returned.hasUnusualRoot = s.hasUnusualRoot := by
    funext op
    rw [hasUnusualRoot, hasUnusualRoot, hasObject_returned]
    rfl
  have hdirectives : s.returned.directives.isEmpty = s.directives.isEmpty := List.isEmpty_map
  have hneeds : s.returned.needsBlock = s.needsBlock := by
    rw [needsBlock, needsBlock, hunusual, hdirectives]
  rw [block?, block?, hneeds]
  split_ifs <;> rfl

theorem document_returned (s : Schema) :
    s.returned.document = s.document.map Definition.returned := by
  have hblock : s.returned.block?.toList.map Definition.schema =
      (s.block?.toList.map Definition.schema).map Definition.returned := by
    rw [block?_returned]
    cases s.block? <;> rfl
  rw [document, document, hblock, List.map_append, List.map_append]
  congr 1
  · congr 1
    simp only [returned, Registry.values, Registry.map, List.map_map]
    rfl
  · simp only [returned, Registry.values, Registry.map, List.map_map]
    refine List.map_congr_left fun e _ => ?_
    exact congrArg Definition.type (TypeDefinition.mapFields_returned e.2)

/-! ## Schemas that can be printed -/

/-- A schema whose document has definitions that fit, and from whose document it is read again. -/
structure IsPrintable (s : Schema) : Prop where
  named : s.IsNamed
  lifted : s.IsLifted
  clean : s.IsClean
  objects : s.HasConventionalObjects
  fits : s.Fits Sdl.maxDepth
  nonempty : s.types.entries ≠ []

/-- What comes back of a printable schema is read from its document. -/
theorem IsPrintable.ofDocument_returned (h : s.IsPrintable) :
    ofDocument s.returned.document = .ok s.returned := by
  have hfields : ∀ e ∈ s.returned.types.entries, ∀ f ∈ e.2.fields, f.IsResolved ∧ f.IsLifted := by
    intro e he f hf
    obtain ⟨source, hsource, rfl⟩ := List.mem_map.1 he
    rw [TypeDefinition.fields_returned] at hf
    obtain ⟨g, hg, rfl⟩ := List.mem_map.1 hf
    have hres := h.clean.isResolved source hsource g hg
    refine ⟨⟨hres.unannotated, hres.unmarked⟩, fun d hd => ?_⟩
    obtain ⟨x, hx, rfl⟩ := List.mem_map.1 hd
    exact h.lifted source hsource g hg x hx
  have hnamed : s.returned.IsNamed := by
    refine ⟨fun e he => ?_, fun e he => ?_⟩
    · obtain ⟨source, hsource, rfl⟩ := List.mem_map.1 he
      exact (h.named.types source hsource).trans (TypeDefinition.name_returned _ _).symm
    · obtain ⟨source, hsource, rfl⟩ := List.mem_map.1 he
      exact h.named.directives source hsource
  refine ofDocument_document hnamed (fun e he f hf => (hfields e he f hf).2)
    (fun e he f hf => (hfields e he f hf).1) fun op hop => ?_
  rw [hasObject_returned]
  exact h.objects op hop

theorem hasObject_of_kindOf? {name : String} (h : s.kindOf? name = some .object) :
    s.hasObject name = true := by
  rw [kindOf?] at h
  rw [hasObject]
  cases htype : s.type? name with
  | none =>
    rw [htype] at h
    dsimp only at h
    split_ifs at h
    cases h
  | some d =>
    rw [htype] at h
    exact beq_iff_eq.2 (Option.some.inj h)

theorem exists_query_of_valid (hvalid : s.problems = []) : ∃ name, s.roots.query = some name := by
  rw [problems, rootProblems, List.append_eq_nil_iff, List.append_eq_nil_iff] at hvalid
  cases hquery : s.roots.query with
  | some name => exact ⟨name, rfl⟩
  | none =>
    rw [hquery] at hvalid
    cases hvalid.1.1

theorem entries_ne_nil_of_hasObject {name : String} (h : s.hasObject name = true) :
    s.types.entries ≠ [] := by
  intro hempty
  have hnone : s.types.find? name = none :=
    Registry.find?_eq_none_iff.2 (by rw [Registry.keys, hempty]; exact List.not_mem_nil)
  rw [hasObject, type?, hnone] at h
  cases h

theorem IsNamed.convert (h : s.IsNamed) (mode : Mode) : (s.convert mode).IsNamed := by
  refine ⟨fun e he => ?_, fun e he => h.directives e (List.mem_of_mem_filter he)⟩
  rw [types_convert] at he
  obtain ⟨x, hx, rfl⟩ := List.mem_map.1 he
  exact (h.types x (List.mem_of_mem_filter hx)).trans (TypeDefinition.name_mapFields _ _).symm

theorem IsLifted.convert (h : s.IsLifted) (mode : Mode) : (s.convert mode).IsLifted := by
  intro e he f hf
  rw [types_convert] at he
  obtain ⟨x, hx, rfl⟩ := List.mem_map.1 he
  rw [TypeDefinition.convert, TypeDefinition.fields_mapFields] at hf
  obtain ⟨g, hg, rfl⟩ := List.mem_map.1 hf
  rw [Field.convert_eq_plain]
  exact h x (List.mem_of_mem_filter hx) g hg

/-- **A loaded schema without problems is converted to one that can be printed.** -/
theorem isPrintable_convert {text : String} (htext : ofText text = .ok s) (hvalid : s.problems = [])
    (mode : Mode) : (s.convert mode).IsPrintable := by
  obtain ⟨source, hparse, hdoc⟩ := ofText_eq_ok_iff.1 htext
  have hnamed := isNamed_ofDocument hdoc
  have hroot : ∀ op name, s.roots.get? op = some name → (s.convert mode).hasObject name = true := by
    intro op name hop
    refine hasObject_of_kindOf? ?_
    rw [kindOf?_convert (hasPublicKeys_of_valid hnamed hvalid)]
    exact (resolves_of_valid hvalid).roots op name hop
  obtain ⟨query, hquery⟩ := exists_query_of_valid hvalid
  exact {
    named := hnamed.convert mode
    lifted := (isLifted_ofDocument hdoc).convert mode
    clean := isClean_convert mode s
    objects := fun op hop => hroot op _ hop
    fits := (fits_ofDocument hdoc (Sdl.fits_of_ofText? hparse)).convert mode
    nonempty := entries_ne_nil_of_hasObject (hroot .query query hquery) }

/-! ## Loading what is printed -/

/-- The text of a schema can be read: its floating-point values have a text that is a number or a
name, and its directive definitions have a location. -/
structure IsReadable (s : Schema) : Prop where
  pieces : ∀ p ∈ documentPieces s.document, p.IsReadable
  locations : ∀ e ∈ s.directiveDefinitions.entries, e.2.locations ≠ []

/-- Nothing in the text of a schema changes when it is read: its texts survive, its floating-point
values have a fraction, and its directive definitions have a location. -/
structure IsFaithful (s : Schema) : Prop where
  pieces : ∀ p ∈ documentPieces s.document, p.IsKept
  locations : ∀ e ∈ s.directiveDefinitions.entries, e.2.locations ≠ []

instance (s : Schema) : Decidable s.IsFaithful :=
  decidable_of_iff ((∀ p ∈ documentPieces s.document, p.IsKept) ∧
    ∀ e ∈ s.directiveDefinitions.entries, e.2.locations ≠ [])
    ⟨fun h => ⟨h.1, h.2⟩, fun h => ⟨h.pieces, h.locations⟩⟩

/-- The same roots and directives, and under each name the same definitions: two schemas that differ in
nothing but the order of their definitions. -/
structure Agrees (t s : Schema) : Prop where
  roots : t.roots = s.roots
  directives : t.directives = s.directives
  types : ∀ name, t.types.find? name = s.types.find? name
  directiveDefinitions :
    ∀ name, t.directiveDefinitions.find? name = s.directiveDefinitions.find? name

theorem Agrees.eq_of_keys {t : Schema} (h : t.Agrees s) (htypes : t.types.keys = s.types.keys)
    (hdirectives : t.directiveDefinitions.keys = s.directiveDefinitions.keys) : t = s := by
  obtain ⟨roots, directives, types, directiveDefinitions⟩ := t
  obtain ⟨hroots, hdirs, htypes', hdefinitions⟩ := h
  cases hroots
  cases hdirs
  cases Registry.ext_find? htypes htypes'
  cases Registry.ext_find? hdirectives hdefinitions
  rfl

section Printed

variable (h : s.IsPrintable)

include h

theorem IsPrintable.fits_document : ∀ d ∈ s.document, d.Fits Sdl.maxDepth := h.fits.document h.clean

theorem IsPrintable.lexes : Sdl.Lexes (documentPieces s.document) :=
  Sdl.lexes_document h.fits_document

theorem IsPrintable.document_ne_nil : s.document ≠ [] := by
  intro hnil
  have htypes := (List.append_eq_nil_iff.1 hnil).2
  rw [List.map_eq_nil_iff, Registry.values, List.map_eq_nil_iff] at htypes
  exact h.nonempty htypes

omit h in
theorem extension?_document (s : Schema) : ∀ d ∈ s.document, d.extension? = none := by
  intro d hd
  rw [document, List.append_assoc] at hd
  rcases List.mem_append.1 hd with hd | hd
  · obtain ⟨block, _, rfl⟩ := List.mem_map.1 hd
    rfl
  · rcases List.mem_append.1 hd with hd | hd
    · obtain ⟨definition, _, rfl⟩ := List.mem_map.1 hd
      rfl
    · obtain ⟨definition, _, rfl⟩ := List.mem_map.1 hd
      rfl

omit h in
/-- The definitions have a notation if the directive definitions have locations. -/
theorem hasNotation_iff (s : Schema) : (∀ d ∈ s.document, d.HasNotation) ↔
    ∀ e ∈ s.directiveDefinitions.entries, e.2.locations ≠ [] := by
  constructor
  · intro hall e he
    refine hall (.directive e.2) (List.mem_append_left _ (List.mem_append_right _ ?_))
    exact List.mem_map_of_mem (List.mem_map_of_mem he)
  · intro hall d hd
    have hextension := extension?_document s d hd
    cases d with
    | schema block => trivial
    | type d => trivial
    | extend e => cases hextension
    | directive d =>
      rw [document, List.append_assoc] at hd
      rcases List.mem_append.1 hd with hd | hd
      · obtain ⟨block, _, heq⟩ := List.mem_map.1 hd
        cases heq
      · rcases List.mem_append.1 hd with hd | hd
        · obtain ⟨x, hx, heq⟩ := List.mem_map.1 hd
          cases heq
          obtain ⟨e, he, rfl⟩ := List.mem_map.1 hx
          exact hall e he
        · obtain ⟨x, _, heq⟩ := List.mem_map.1 hd
          cases heq

/-- The tokens of the text are those of what comes back. -/
theorem IsPrintable.ofText?_text (hread : ∀ p ∈ documentPieces s.document, p.IsReadable) :
    Sdl.Token.ofText? (endLine s.document.text) =
      some (tokensOf (documentPieces s.returned.document)) := by
  rw [document_returned, Sdl.pieces_document, Document.text, Sdl.ofText?_endLine h.lexes,
    Sdl.Piece.readings?_eq hread]

/-- **A readable text is loaded as what comes back.** -/
theorem IsPrintable.ofText_text (hread : s.IsReadable) :
    ofText (endLine s.document.text) = .ok s.returned := by
  have hnotation : ∀ d ∈ s.returned.document, d.Fits Sdl.maxDepth ∧ d.HasNotation := by
    rw [document_returned]
    intro d hd
    obtain ⟨x, hx, rfl⟩ := List.mem_map.1 hd
    exact ⟨(h.fits_document x hx).returned, (Definition.hasNotation_returned_iff
      (extension?_document s x hx)).2 ((hasNotation_iff s).2 hread.locations x hx)⟩
  have hne : s.returned.document ≠ [] := by
    rw [document_returned]
    exact List.map_eq_nil_iff.not.2 h.document_ne_nil
  refine ofText_eq_ok_iff.2 ⟨s.returned.document, ?_, h.ofDocument_returned⟩
  rw [Document.ofText?, h.ofText?_text hread.pieces, Option.bind_some,
    Sdl.document_run hne hnotation]

/-- **Any other text is refused.** -/
theorem IsPrintable.ofText_text_error (hread : ¬s.IsReadable) :
    ofText (endLine s.document.text) = .error .invalidSdl := by
  have hnone : Document.ofText? (endLine s.document.text) = none := by
    by_cases hpieces : ∀ p ∈ documentPieces s.document, p.IsReadable
    · have hlocations : ¬∀ d ∈ s.document, d.HasNotation :=
        fun hall => hread ⟨hpieces, (hasNotation_iff s).1 hall⟩
      obtain ⟨d, hnot⟩ := not_forall.1 hlocations
      obtain ⟨hd, hnot⟩ := Classical.not_imp.1 hnot
      rw [Document.ofText?, h.ofText?_text hpieces, Option.bind_some]
      refine Sdl.document_run_none (fun x hx => ?_) ?_
      · rw [document_returned] at hx
        obtain ⟨y, hy, rfl⟩ := List.mem_map.1 hx
        exact ⟨(h.fits_document y hy).returned,
          Definition.extension?_returned (extension?_document s y hy)⟩
      · rw [document_returned]
        exact ⟨d.returned, List.mem_map_of_mem hd,
          (Definition.hasNotation_returned_iff (extension?_document s d hd)).not.2 hnot⟩
    · rw [Document.ofText?, Document.text, Sdl.ofText?_endLine h.lexes]
      cases hreadings : Sdl.Piece.readings? (documentPieces s.document) with
      | none => rfl
      | some ts => exact absurd (Sdl.Piece.isReadable_of_readings? hreadings) hpieces
  rw [ofText, hnone]

/-- What is faithful comes back as it was. -/
theorem IsPrintable.ofText_text_of_isFaithful (hfaithful : s.IsFaithful) :
    ofText (endLine s.document.text) = .ok s := by
  have hkept : ∀ p ∈ documentPieces s.document, p.IsReadable ∧ p.returned = p :=
    fun p hp => (hfaithful.pieces p hp).returned_eq (h.lexes.isCanonical p hp)
  have htokens : tokensOf (documentPieces s.returned.document) =
      tokensOf (documentPieces s.document) := by
    rw [document_returned, Sdl.pieces_document, List.map_congr_left fun p hp => (hkept p hp).2,
      List.map_id']
  refine ofText_eq_ok_iff.2 ⟨s.document, ?_, ofDocument_document h.named h.lifted
    h.clean.isResolved h.objects⟩
  rw [Document.ofText?, h.ofText?_text fun p hp => (hkept p hp).1, Option.bind_some, htokens]
  exact Sdl.document_run h.document_ne_nil fun d hd =>
    ⟨h.fits_document d hd, (hasNotation_iff s).2 hfaithful.locations d hd⟩

/-- **What is not faithful comes back as something else**, in whatever order it is looked at. -/
theorem IsPrintable.not_agrees (hnot : ¬s.IsFaithful) {t : Schema}
    (ht : ofText (endLine s.document.text) = .ok t) : ¬t.Agrees s := by
  have hread : s.IsReadable := by
    by_contra hunread
    rw [h.ofText_text_error hunread] at ht
    cases ht
  rw [h.ofText_text hread] at ht
  cases ht
  intro hagrees
  have hself : s.returned = s := hagrees.eq_of_keys (Registry.keys_map _ _) (Registry.keys_map _ _)
  have hpieces : (documentPieces s.document).map Sdl.Piece.returned = documentPieces s.document := by
    rw [← Sdl.pieces_document, ← document_returned, hself]
  refine hnot ⟨fun p hp => ?_, hread.locations⟩
  exact Sdl.Piece.isKept_of_returned_eq (h.lexes.isCanonical p hp) (hread.pieces p hp)
    (List.map_inj_left.1 (hpieces.trans (List.map_id _).symm) p hp)

end Printed

/-- **What the printed text denotes.** A loaded schema without problems is converted to a schema that
has a text. If the converted schema is readable, its text is loaded as what comes back of it, else the
text is refused. If it is faithful, the text denotes it; if it is not, then what is loaded, if anything,
has another definition, directive or root somewhere. -/
theorem ofText_text_convert {text : String} (htext : ofText text = .ok s) (hvalid : s.problems = [])
    (mode : Mode) :
    ∃ printed, (s.convert mode).text = .ok printed ∧
      ((s.convert mode).IsReadable → ofText printed = .ok (s.convert mode).returned) ∧
      (¬(s.convert mode).IsReadable → ofText printed = .error .invalidSdl) ∧
      ((s.convert mode).IsFaithful → ofText printed = .ok (s.convert mode)) ∧
      (¬(s.convert mode).IsFaithful → ∀ t, ofText printed = .ok t → ¬t.Agrees (s.convert mode)) := by
  have h := isPrintable_convert htext hvalid mode
  exact ⟨_, text_eq h.clean.isResolved, h.ofText_text, h.ofText_text_error,
    h.ofText_text_of_isFaithful, fun hnot _ => h.not_agrees hnot⟩

/-- A description of two lines, a value with a fraction and levels. -/
def faithfulText : String :=
  "\"one\\ntwo\" type Query \x7b b(c: X = [0.5, RED]): Int @semanticNonNull \x7d
directive @semanticNonNull on OBJECT scalar X"

theorem ofText_text_convert_faithfulText :
    ∃ s printed, ofText faithfulText = .ok s ∧ s.problems = [] ∧
      (s.convert .strict).text = .ok printed ∧ ofText printed = .ok (s.convert .strict) := by
  have hpasses : textPasses faithfulText (fun s =>
      decide (s.problems = [] ∧ (s.convert .strict).IsFaithful)) = true := by
    decide +kernel
  obtain ⟨s, htext, hs⟩ := exists_of_textPasses hpasses
  obtain ⟨hvalid, hfaithful⟩ := of_decide_eq_true hs
  obtain ⟨printed, hprinted, -, -, hsame, -⟩ := ofText_text_convert htext hvalid .strict
  exact ⟨s, printed, htext, hvalid, hprinted, hsame hfaithful⟩

/-- A text of a schema without problems whose conversions are printed as texts that denote something
else, or nothing. -/
def PrintsOther (text : String) : Prop :=
  ∃ s, ofText text = .ok s ∧ s.problems = [] ∧ ∀ mode, ∃ printed,
    (s.convert mode).text = .ok printed ∧
    ∀ t, ofText printed = .ok t → ¬t.Agrees (s.convert mode)

theorem printsOther_of_textPasses {text : String}
    (hpasses : textPasses text (fun s => decide (s.problems = [] ∧
      ¬(s.convert .strict).IsFaithful ∧ ¬(s.convert .nullable).IsFaithful)) = true) :
    PrintsOther text := by
  obtain ⟨s, htext, hs⟩ := exists_of_textPasses hpasses
  obtain ⟨hvalid, hstrict, hnullable⟩ := of_decide_eq_true hs
  refine ⟨s, htext, hvalid, fun mode => ?_⟩
  have h := isPrintable_convert htext hvalid mode
  refine ⟨_, text_eq h.clean.isResolved, fun _ => h.not_agrees ?_⟩
  cases mode with
  | strict => exact hstrict
  | nullable => exact hnullable

/-- A whole floating-point value, a character beyond the basic plane, a line feed at the end of a text,
and a directive definition without locations. -/
theorem printsOther_changedLiterals :
    PrintsOther "type Query \x7b a(x: Float = 1e5): Int \x7d" ∧
    PrintsOther "\"😀\" type Query \x7b a: Int \x7d" ∧
    PrintsOther "\"a\\n\" type Query \x7b a: Int \x7d" ∧
    PrintsOther "type Query \x7b a: Int \x7d directive @d on" := by
  refine ⟨printsOther_of_textPasses ?_, printsOther_of_textPasses ?_, printsOther_of_textPasses ?_,
    printsOther_of_textPasses ?_⟩
  all_goals decide +kernel

end Schema

end SemanticNullability
