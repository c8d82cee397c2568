import SemanticNullability.Proofs.Clean
import SemanticNullability.Proofs.Loaded
import SemanticNullability.Proofs.Nullability
import SemanticNullability.Proofs.Parsed
/-!
# What is loaded and converted fits

Loading puts the parts of parsed definitions together and conversion replaces the types of fields, and
neither makes a name that is no name or a type of deeper lists. So the document of a converted schema
fits (`Schema.fits_document`): it is one that can be written and read again.
-/
namespace SemanticNullability

open Sdl (IsName)

/-! ## Types of fields -/

section Types

theorem WrittenType.Fits.isName {depth : Nat} {t : WrittenType} (h : t.Fits depth) :
    IsName t.baseName := by
  induction t generalizing depth with
  | named n => cases depth <;> exact h
  | list item ih =>
    cases depth with
    | zero => cases h
    | succ depth => exact ih h
  | nonNull inner ih => cases depth <;> exact ih h.2

theorem WrittenType.Fits.depth_le {depth : Nat} {t : WrittenType} (h : t.Fits depth) :
    (TypeExpr.ofWritten t).depth ≤ depth := by
  induction t generalizing depth with
  | named n => exact Nat.zero_le _
  | list item ih =>
    cases depth with
    | zero => cases h
    | succ depth => exact Nat.succ_le_succ (ih h)
  | nonNull inner ih => cases depth <;> exact ih h.2

/-- A type without markers and doubled wrappers fits once it is written. -/
theorem TypeExpr.fits_written {depth : Nat} {t : TypeExpr} (hname : IsName t.baseName)
    (hdepth : t.depth ≤ depth) (hmarker : t.hasMarker = false) (hdouble : t.hasDoubleNonNull = false) :
    t.written.Fits depth := by
  induction t generalizing depth with
  | named n => cases depth <;> exact hname
  | list item ih =>
    cases depth with
    | zero => cases hdepth
    | succ depth => exact ih hname (Nat.le_of_succ_le_succ hdepth) hmarker hdouble
  | nonNull inner ih =>
    obtain ⟨hhead, hrest⟩ := Bool.or_eq_false_iff.1 hdouble
    have hinner := ih hname hdepth hmarker hrest
    have hhead' : inner.written.isNonNull = false := by
      cases inner with
      | named n => rfl
      | list item => rfl
      | nonNull inner => cases hhead
      | semanticNonNull inner => cases hmarker
    cases depth <;> exact ⟨hhead', hinner⟩
  | semanticNonNull inner => cases hmarker

end Types

/-! ## Fields -/

section Fields

variable {depth : Nat}

theorem Field.fits_ofWritten {w : WrittenField} (h : w.Fits depth) :
    (Field.ofWritten w).Fits depth where
  name := h.name
  arguments := h.arguments
  baseName := by
    rw [Field.ofWritten, TypeExpr.baseName_ofWritten]
    exact h.type.isName
  listDepth := h.type.depth_le
  directives d hd := h.directives d (List.mem_of_mem_filter hd)

theorem Field.Fits.convert {f : Field} (h : f.Fits depth) (mode : Mode) :
    (f.convert mode).Fits depth := by
  have hdepth : (f.convert mode).type.depth ≤ depth := by
    rw [depth_convert]
    exact h.listDepth
  have hname : IsName (f.convert mode).type.baseName := by
    rw [baseName_convert]
    exact h.baseName
  rw [convert_eq_plain]
  exact ⟨h.name, h.arguments, hname, hdepth, h.directives⟩

theorem Field.Fits.written {f : Field} (h : f.Fits depth) (hclean : f.IsClean) :
    f.written.Fits depth where
  name := h.name
  arguments := h.arguments
  type := TypeExpr.fits_written h.baseName h.listDepth hclean.unmarked hclean.single
  directives := h.directives

end Fields

/-! ## Definitions -/

namespace TypeDefinition

variable {φ ψ : Type} {fits : Nat → φ → Prop} {depth : Nat} {d : TypeDefinition φ}

theorem Fits.mapFields {fits' : Nat → ψ → Prop} {g : φ → ψ} (h : d.Fits fits depth)
    (hg : ∀ depth, ∀ f ∈ d.fields, fits depth f → fits' depth (g f)) :
    (d.mapFields g).Fits fits' depth where
  name := by
    rw [name_mapFields]
    exact h.name
  interfaces := by
    rw [interfaces_mapFields]
    exact h.interfaces
  directives := by
    rw [directives_mapFields]
    exact h.directives
  members := by
    rw [members_mapFields]
    exact h.members
  fields := by
    rw [fields_mapFields]
    exact h.fields.map hg
  values := by
    rw [values_mapFields]
    exact h.values
  inputFields := by
    rw [inputFields_mapFields]
    exact h.inputFields

/-- The parts of definitions that fit make a definition that fits. -/
theorem Fits.withParts {es : List (TypeDefinition φ)} (h : d.Fits fits depth)
    (hes : ∀ e ∈ es, e.Fits fits depth) : (d.withParts es).Fits fits depth := by
  have hnames : ∀ {own : List String} (part : TypeDefinition φ → List String),
      (∀ n ∈ own, IsName n) → (∀ e ∈ es, ∀ n ∈ part e, IsName n) →
      ∀ n ∈ own ++ es.flatMap part, IsName n := by
    intro own part hown hpart n hn
    rcases List.mem_append.1 hn with hn | hn
    · exact hown n hn
    · obtain ⟨e, he, hn⟩ := List.mem_flatMap.1 hn
      exact hpart e he n hn
  have hinterfaces := hnames TypeDefinition.interfaces h.interfaces fun e he => (hes e he).interfaces
  have hmembers := hnames TypeDefinition.members h.members fun e he => (hes e he).members
  have hdirectives : DirectivesFit depth (d.directives ++ es.flatMap TypeDefinition.directives) := by
    intro x hx
    rcases List.mem_append.1 hx with hx | hx
    · exact h.directives x hx
    · obtain ⟨e, he, hx⟩ := List.mem_flatMap.1 hx
      exact (hes e he).directives x hx
  have hfields := h.fields.append (GroupFits.flatMap fun e he => (hes e he).fields)
  have hvalues := h.values.append (GroupFits.flatMap fun e he => (hes e he).values)
  have hinputs := h.inputFields.append (GroupFits.flatMap fun e he => (hes e he).inputFields)
  cases d with
  | object t => exact ⟨h.name, hinterfaces, hdirectives, h.members, hfields, h.values, h.inputFields⟩
  | interface t =>
    exact ⟨h.name, hinterfaces, hdirectives, h.members, hfields, h.values, h.inputFields⟩
  | union t => exact ⟨h.name, h.interfaces, hdirectives, hmembers, h.fields, h.values, h.inputFields⟩
  | scalar t =>
    exact ⟨h.name, h.interfaces, hdirectives, h.members, h.fields, h.values, h.inputFields⟩
  | enum t => exact ⟨h.name, h.interfaces, hdirectives, h.members, h.fields, hvalues, h.inputFields⟩
  | inputObject t =>
    exact ⟨h.name, h.interfaces, hdirectives, h.members, h.fields, h.values, hinputs⟩

end TypeDefinition

/-! ## Schemas -/

namespace Schema

variable {depth : Nat} {s : Schema}

/-- The schema of a document that fits, fits. -/
theorem fits_ofDocument {document : Document} (h : ofDocument document = .ok s)
    (hdocument : ∀ d ∈ document, d.Fits depth) : s.Fits depth := by
  obtain ⟨block, hs, hblock, htypes, hdirectives, -⟩ := ofDocument_eq_ok h
  have hheader : DirectivesFit depth s.directives ∧
      ∀ op n, s.roots.get? op = some n → IsName n := by
    cases block with
    | none =>
      rw [hs]
      refine ⟨fun d hd => absurd hd List.not_mem_nil, fun op n hn => ?_⟩
      rw [withBlock, conventionalRoots, Roots.get?_ofFn] at hn
      split_ifs at hn
      cases hn
      cases op <;> decide
    | some block =>
      have hmem : block ∈ document.filterMap Definition.block? := hblock ▸ List.mem_singleton_self _
      obtain ⟨d, hd, hd'⟩ := List.mem_filterMap.1 hmem
      have hfits := hdocument d hd
      cases d <;> cases hd'
      rw [hs]
      exact ⟨hfits.directives, hfits.roots⟩
  refine ⟨hheader.1, hheader.2, fun e he => ?_, fun e he => ?_⟩
  · rw [htypes] at he
    obtain ⟨d, hd, rfl⟩ := List.mem_map.1 he
    obtain ⟨t, ht, rfl⟩ := List.mem_map.1 hd
    obtain ⟨d, hd, hd'⟩ := List.mem_filterMap.1 ht
    have hfits := hdocument d hd
    cases d <;> cases hd'
    have hextended : (document.extended t).Fits WrittenField.Fits depth := by
      refine TypeDefinition.Fits.withParts hfits fun e he => ?_
      obtain ⟨x, hx, hx'⟩ := List.mem_filterMap.1 (List.mem_of_mem_filter he)
      have hxfits := hdocument x hx
      cases x <;> cases hx'
      exact hxfits
    exact hextended.mapFields fun _ _ _ => Field.fits_ofWritten
  · rw [hdirectives] at he
    obtain ⟨t, ht, rfl⟩ := List.mem_map.1 he
    obtain ⟨d, hd, hd'⟩ := List.mem_filterMap.1 ht
    have hfits := hdocument d hd
    cases d <;> cases hd'
    exact hfits

theorem Fits.convert (h : s.Fits depth) (mode : Mode) : (s.convert mode).Fits depth where
  directives := h.directives
  roots := h.roots
  types e he := by
    rw [types_convert] at he
    obtain ⟨source, hsource, rfl⟩ := List.mem_map.1 he
    exact (h.types source (List.mem_of_mem_filter hsource)).mapFields fun _ f _ hf => hf.convert mode
  directiveDefinitions e he := h.directiveDefinitions e (List.mem_of_mem_filter he)

/-- **The document of a clean schema that fits can be written and read.** -/
theorem Fits.document (h : s.Fits depth) (hclean : s.IsClean) :
    ∀ d ∈ s.document, d.Fits depth := by
  intro d hd
  rcases List.mem_append.1 hd with hd | hd
  · rcases List.mem_append.1 hd with hd | hd
    · obtain ⟨block, hblock, rfl⟩ := List.mem_map.1 hd
      rw [Option.mem_toList, block?] at hblock
      split_ifs at hblock
      cases hblock
      exact ⟨h.directives, h.roots⟩
    · obtain ⟨definition, hdefinition, rfl⟩ := List.mem_map.1 hd
      obtain ⟨e, he, rfl⟩ := List.mem_map.1 hdefinition
      exact h.directiveDefinitions e he
  · obtain ⟨definition, hdefinition, rfl⟩ := List.mem_map.1 hd
    obtain ⟨e, he, rfl⟩ := List.mem_map.1 hdefinition
    exact (h.types e he).mapFields fun _ f hf hfits => hfits.written (hclean.fields e he f hf)

end Schema

end SemanticNullability
