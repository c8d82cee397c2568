import SemanticNullability.Proofs.Loaded
/-!
# Which documents have a schema

A document has a schema exactly if it defines nothing twice and each of its extensions extends a type
that it defines, of the same kind: `Schema.exists_ofDocument_iff`. Reading definitions fails on a
repetition only, and merging on an extension that fits nothing. A text that has no schema is
malformed in one of three ways: `Schema.exists_ofText_eq_error_iff`.
-/
namespace SemanticNullability

namespace Document

/-- A document repeats no definition: each type and each directive has a name of its own, and there is
one schema block at most. -/
structure DefinesOnce (document : Document) : Prop where
  types : (document.types.map (·.name)).Nodup
  directives : (document.directives.map (·.name)).Nodup
  block : (document.filterMap Definition.block?).length ≤ 1

/-- Every extension of a document extends a type that the document defines, of the same kind. -/
def ExtendsOwnTypes (document : Document) : Prop :=
  ∀ e ∈ document.filterMap Definition.extension?, ∃ d ∈ document.types,
    d.name = e.name ∧ d.kind = e.kind

end Document

/-! ## Reading definitions -/

namespace Definitions

theorem map_fst_typeEntries (types : List (TypeDefinition WrittenField)) :
    (typeEntries types).map Prod.fst = types.map (·.name) := by
  simp [typeEntries]

theorem map_fst_directiveEntries (directives : List DirectiveDefinition) :
    (directiveEntries directives).map Prod.fst = directives.map (·.name) := by
  simp [directiveEntries]

/-- The definitions of a document can be read exactly if none is repeated. -/
theorem exists_ofDocument_iff {document : Document} :
    (∃ r, ofDocument document = .ok r) ↔ document.DefinesOnce := by
  constructor
  · rintro ⟨r, hr⟩
    obtain ⟨htypes, hdirectives, hblock⟩ := foldlM_add_eq_ok_iff.1 hr
    have htypes : r.types.entries = typeEntries document.types := htypes
    have hdirectives : r.directives.entries = directiveEntries document.directives := hdirectives
    refine ⟨?_, ?_, ?_⟩
    · rw [← map_fst_typeEntries, ← htypes]
      exact r.types.nodup
    · rw [← map_fst_directiveEntries, ← hdirectives]
      exact r.directives.nodup
    · have hlength : r.block.toList.length = (document.filterMap Definition.block?).length :=
        congrArg List.length hblock
      rw [← hlength]
      cases r.block <;> simp
  · rintro ⟨htypes, hdirectives, hblock⟩
    rw [← map_fst_typeEntries] at htypes
    rw [← map_fst_directiveEntries] at hdirectives
    refine ⟨⟨⟨_, htypes⟩, ⟨_, hdirectives⟩, (document.filterMap Definition.block?).head?⟩,
      foldlM_add_eq_ok_iff.2 ⟨rfl, rfl, ?_⟩⟩
    match h : document.filterMap Definition.block? with
    | [] => rfl
    | [b] => rfl
    | b :: b' :: rest => simp [h] at hblock

end Definitions

/-! ## Merging extensions -/

theorem kindIn_eq_some_iff {document : Document} {r : Definitions}
    (h : Definitions.ofDocument document = .ok r) {name : String} {kind : TypeKind} :
    kindIn r.types name = some kind ↔ ∃ d ∈ document.types, d.name = name ∧ d.kind = kind := by
  have hentries : r.types.entries = Definitions.typeEntries document.types :=
    (Definitions.foldlM_add_eq_ok_iff.1 h).types
  unfold kindIn
  simp only [Option.map_eq_some_iff, Registry.find?_eq_some_iff, hentries, Definitions.typeEntries,
    List.mem_map, Prod.mk.injEq]
  constructor
  · rintro ⟨_, ⟨d, hd, hname, rfl⟩, hkind⟩
    exact ⟨d, hd, hname, (TypeDefinition.kind_mapFields _ d).symm.trans hkind⟩
  · rintro ⟨d, hd, hname, hkind⟩
    exact ⟨_, ⟨d, hd, hname, rfl⟩, (TypeDefinition.kind_mapFields _ d).trans hkind⟩

/-- Behind definitions that can be read, all extensions can be merged exactly if the document extends
its own types only. -/
theorem exists_extensions_iff {document : Document} {r : Definitions}
    (h : Definitions.ofDocument document = .ok r) :
    (∃ types, (document.filterMap Definition.extension?).foldlM extendType r.types = .ok types) ↔
      document.ExtendsOwnTypes := by
  simp only [exists_foldlM_extendType_iff, kindIn_eq_some_iff h]
  exact Iff.rfl

/-! ## Documents and texts -/

namespace Schema

/-- **Acceptance.** A document has a schema exactly if it repeats no definition and extends its own
types only. -/
theorem exists_ofDocument_iff {document : Document} :
    (∃ s, ofDocument document = .ok s) ↔ document.DefinesOnce ∧ document.ExtendsOwnTypes := by
  rw [← Definitions.exists_ofDocument_iff]
  constructor
  · rintro ⟨s, hs⟩
    rw [ofDocument] at hs
    obtain ⟨r, hdefs, hs⟩ := bind_eq_ok_iff.1 hs
    obtain ⟨types, htypes, -⟩ := bind_eq_ok_iff.1 hs
    exact ⟨⟨r, hdefs⟩, (exists_extensions_iff hdefs).1 ⟨types, htypes⟩⟩
  · rintro ⟨⟨r, hdefs⟩, hextends⟩
    obtain ⟨types, htypes⟩ := (exists_extensions_iff hdefs).2 hextends
    exact ⟨_, bind_eq_ok_iff.2 ⟨r, hdefs, bind_eq_ok_iff.2 ⟨types, htypes, rfl⟩⟩⟩

end Schema

/-- What is wrong with a text that has no schema. -/
inductive Malformed (text : String) : Prop where
  | notSdl (h : Document.ofText? text = none)
  | repeated {document : Document} (h : Document.ofText? text = some document)
      (hrepeats : ¬ document.DefinesOnce)
  | extension {document : Document} (h : Document.ofText? text = some document)
      (hextends : ¬ document.ExtendsOwnTypes)

namespace Schema

/-- A text has no schema exactly if it is malformed. -/
theorem exists_ofText_eq_error_iff {text : String} :
    (∃ e, ofText text = .error e) ↔ Malformed text := by
  constructor
  · rintro ⟨e, he⟩
    cases hparse : Document.ofText? text with
    | none => exact .notSdl hparse
    | some document =>
      -- a document without schema breaks one of the two conditions
      have hnone : ¬ (document.DefinesOnce ∧ document.ExtendsOwnTypes) := by
        rintro hboth
        obtain ⟨s, hs⟩ := exists_ofDocument_iff.2 hboth
        have hok := ofText_eq_ok_iff.2 ⟨document, hparse, hs⟩
        rw [he] at hok
        cases hok
      by_cases honce : document.DefinesOnce
      · exact .extension hparse fun hextends => hnone ⟨honce, hextends⟩
      · exact .repeated hparse honce
  · intro h
    cases hload : ofText text with
    | error e => exact ⟨e, rfl⟩
    | ok s =>
      obtain ⟨document, hparse, hdoc⟩ := ofText_eq_ok_iff.1 hload
      have hboth := exists_ofDocument_iff.1 ⟨s, hdoc⟩
      cases h with
      | notSdl h =>
        rw [hparse] at h
        cases h
      | repeated h hrepeats =>
        cases hparse.symm.trans h
        exact absurd hboth.1 hrepeats
      | extension h hextends =>
        cases hparse.symm.trans h
        exact absurd hboth.2 hextends

/-- The content is to blame for every text without schema. -/
theorem exitCode_of_ofText {text : String} {e : LoadError} (h : ofText text = .error e) :
    e.exitCode = 2 := by
  unfold ofText at h
  split at h
  · cases h
    rfl
  · split at h <;> cases h
    rfl

end Schema

end SemanticNullability
