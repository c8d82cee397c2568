import Mathlib.Data.List.Duplicate
import SemanticNullability.Proofs.Loadable
/-!
# Which error a document gets

A document without schema may have several faults. Definitions are read before any extension is
merged, so the first definition that repeats an earlier one decides, and only without such a one the
first extension that extends no type of its kind. `Document.Fault` says so of a document and an error,
and `Schema.ofDocument_refuses` that this is the error that the document gets.
-/
namespace SemanticNullability

/-! ## Faults of a document -/

/-- The kind and name of what a definition defines. An extension defines nothing. -/
def Definition.identity? : Definition → Option (DefinitionKind × String)
  | .schema _ => some (.schema, "schema")
  | .type d => some (.type, d.name)
  | .directive d => some (.directive, d.name)
  | .extend _ => none

namespace Document

/-- Something of a kind and name is defined in a document. -/
def Defines (document : Document) (kind : DefinitionKind) (name : String) : Prop :=
  ∃ x ∈ document, x.identity? = some (kind, name)

/-- A document defines something twice. -/
inductive Repeats (document : Document) : Prop where
  | schema (h : 2 ≤ (document.filterMap Definition.block?).length)
  | type {name : String} (h : List.Duplicate name (document.types.map (·.name)))
  | directive {name : String} (h : List.Duplicate name (document.directives.map (·.name)))

/-- No type of a name is defined anywhere in a document. -/
def Lacks (document : Document) (name : String) : Prop := ∀ d ∈ document.types, d.name ≠ name

/-- What an extension extends is defined as a type of another kind. -/
def DefinesOtherwise (document : Document) (e : TypeDefinition WrittenField) : Prop :=
  ∃ d ∈ document.types, d.name = e.name ∧ d.kind ≠ e.kind

/-- An extension extends no type of a document, or one of another kind. -/
def Misfits (document : Document) (e : TypeDefinition WrittenField) : Prop :=
  document.Lacks e.name ∨ document.DefinesOtherwise e

/-- The fault of a document that is found first, as an error. -/
inductive Fault (document : Document) : DocumentError → Prop where
  /-- A definition repeats an earlier one, the first one to do so, whatever the extensions are. -/
  | repeated {before after : Document} {x : Definition} {kind : DefinitionKind} {name : String}
      (split : document = before ++ x :: after) (first : ¬ before.Repeats)
      (defines : x.identity? = some (kind, name)) (earlier : before.Defines kind name) :
      document.Fault (.duplicate kind name)
  /-- Nothing is repeated, and the first extension that does not fit extends nothing. -/
  | undefined {before after : Document} {e : TypeDefinition WrittenField}
      (once : ¬ document.Repeats) (split : document = before ++ .extend e :: after)
      (first : ∀ x, .extend x ∈ before → ¬ document.Misfits x) (lacks : document.Lacks e.name) :
      document.Fault (.extendsUndefined e.name)
  /-- Nothing is repeated, and the first extension that does not fit extends another kind of type. -/
  | otherKind {before after : Document} {e : TypeDefinition WrittenField}
      (once : ¬ document.Repeats) (split : document = before ++ .extend e :: after)
      (first : ∀ x, .extend x ∈ before → ¬ document.Misfits x)
      (otherwise : document.DefinesOtherwise e) :
      document.Fault (.extendsOtherKind e.name)

theorem definesOnce_iff {document : Document} : document.DefinesOnce ↔ ¬ document.Repeats := by
  constructor
  · rintro ⟨htypes, hdirectives, hblock⟩ hrepeats
    cases hrepeats with
    | schema h => omega
    | type h => exact List.nodup_iff_forall_not_duplicate.1 htypes _ h
    | directive h => exact List.nodup_iff_forall_not_duplicate.1 hdirectives _ h
  · intro h
    refine ⟨?_, ?_, ?_⟩
    · exact List.nodup_iff_forall_not_duplicate.2 fun name hname => h (.type hname)
    · exact List.nodup_iff_forall_not_duplicate.2 fun name hname => h (.directive hname)
    · have hlt : ¬ 2 ≤ (document.filterMap Definition.block?).length := fun h' => h (.schema h')
      omega

theorem defines_schema_iff {document : Document} :
    document.Defines .schema "schema" ↔ document.filterMap Definition.block? ≠ [] := by
  simp only [Defines, ne_eq, List.filterMap_eq_nil_iff, not_forall]
  constructor
  · rintro ⟨x, hx, hidentity⟩
    cases x with
    | schema block => exact ⟨_, hx, Option.some_ne_none block⟩
    | type | directive | extend => cases hidentity
  · rintro ⟨x, hx, hblock⟩
    cases x with
    | schema block => exact ⟨_, hx, rfl⟩
    | type | directive | extend => exact absurd rfl hblock

theorem defines_type_iff {document : Document} {name : String} :
    document.Defines .type name ↔ name ∈ document.types.map (·.name) := by
  simp only [Defines, types, List.mem_map, List.mem_filterMap]
  constructor
  · rintro ⟨x, hx, hidentity⟩
    cases x with
    | type d =>
      cases hidentity
      exact ⟨d, ⟨_, hx, rfl⟩, rfl⟩
    | schema | directive | extend => cases hidentity
  · rintro ⟨d, ⟨x, hx, htype⟩, rfl⟩
    cases x with
    | type d' =>
      cases htype
      exact ⟨_, hx, rfl⟩
    | schema | directive | extend => cases htype

theorem defines_directive_iff {document : Document} {name : String} :
    document.Defines .directive name ↔ name ∈ document.directives.map (·.name) := by
  simp only [Defines, directives, List.mem_map, List.mem_filterMap]
  constructor
  · rintro ⟨x, hx, hidentity⟩
    cases x with
    | directive d =>
      cases hidentity
      exact ⟨d, ⟨_, hx, rfl⟩, rfl⟩
    | schema | type | extend => cases hidentity
  · rintro ⟨d, ⟨x, hx, hdirective⟩, rfl⟩
    cases x with
    | directive d' =>
      cases hdirective
      exact ⟨_, hx, rfl⟩
    | schema | type | extend => cases hdirective

end Document

/-! ## Reading definitions -/

namespace Definitions

section

variable {before : Document} {m : Definitions}

theorem isSome_block_iff (h : empty.ReadBehind before m) :
    m.block.isSome = true ↔ before.Defines .schema "schema" := by
  have hblock : m.block.toList = before.filterMap Definition.block? := h.block
  rw [Document.defines_schema_iff, ← hblock]
  cases m.block <;> simp

theorem contains_types_iff (h : empty.ReadBehind before m) {name : String} :
    m.types.contains name = true ↔ before.Defines .type name := by
  have hkeys : m.types.keys = before.types.map (·.name) := by
    rw [← map_fst_typeEntries]
    exact congrArg _ h.types
  rw [Registry.contains_iff, hkeys, Document.defines_type_iff]

theorem contains_directives_iff (h : empty.ReadBehind before m) {name : String} :
    m.directives.contains name = true ↔ before.Defines .directive name := by
  have hkeys : m.directives.keys = before.directives.map (·.name) := by
    rw [← map_fst_directiveEntries]
    exact congrArg _ h.directives
  rw [Registry.contains_iff, hkeys, Document.defines_directive_iff]

/-- Reading one more definition fails exactly if it repeats one that has been read. -/
theorem add_eq_error_iff (h : empty.ReadBehind before m) {x : Definition} {err : DocumentError} :
    m.add x = .error err ↔ ∃ kind name, err = .duplicate kind name ∧
      x.identity? = some (kind, name) ∧ before.Defines kind name := by
  have hite : ∀ {b : Bool} {e : DocumentError} {r : Definitions},
      (if b = true then Except.error e else .ok r) = .error err ↔ err = e ∧ b = true := by
    intro b e r
    cases b <;> simp [eq_comm]
  cases x with
  | schema block =>
    rw [add, hite, isSome_block_iff h]
    simp [Definition.identity?]
  | type definition =>
    rw [add, hite, contains_types_iff h]
    simp [Definition.identity?]
  | directive definition =>
    rw [add, hite, contains_directives_iff h]
    simp [Definition.identity?]
  | extend extension => simp [add, Definition.identity?]

end

/-- Reading a document fails exactly at the first definition that repeats an earlier one. -/
theorem ofDocument_eq_error_iff {document : Document} {err : DocumentError} :
    ofDocument document = .error err ↔ ∃ (before after : Document) (x : Definition) (kind : _)
      (name : _), document = before ++ x :: after ∧ ¬ before.Repeats ∧
      x.identity? = some (kind, name) ∧ before.Defines kind name ∧
      err = .duplicate kind name := by
  rw [ofDocument, foldlM_eq_error_iff]
  constructor
  · rintro ⟨before, x, after, m, hsplit, hbefore, hx⟩
    have hfirst : ¬ Document.Repeats before :=
      Document.definesOnce_iff.1 (exists_ofDocument_iff.1 ⟨m, hbefore⟩)
    obtain ⟨kind, name, herr, hidentity, hearlier⟩ :=
      (add_eq_error_iff (foldlM_add_eq_ok_iff.1 hbefore)).1 hx
    exact ⟨before, after, x, kind, name, hsplit, hfirst, hidentity, hearlier, herr⟩
  · rintro ⟨before, after, x, kind, name, hsplit, hfirst, hidentity, hearlier, herr⟩
    obtain ⟨m, hbefore⟩ := exists_ofDocument_iff.2 (Document.definesOnce_iff.2 hfirst)
    have hx := (add_eq_error_iff (foldlM_add_eq_ok_iff.1 hbefore)).2
      ⟨kind, name, herr, hidentity, hearlier⟩
    exact ⟨before, x, after, m, hsplit, hbefore, hx⟩

end Definitions

/-! ## Merging extensions -/

section

variable {r : Registry (TypeDefinition Field)} {extensions : List (TypeDefinition WrittenField)}
  {err : DocumentError}

/-- Merging fails exactly at the first extension that is not of the kind of what bears its name. -/
theorem foldlM_extendType_eq_error_iff :
    extensions.foldlM extendType r = .error err ↔ ∃ before e after,
      extensions = before ++ e :: after ∧ (∀ x ∈ before, kindIn r x.name = some x.kind) ∧
      kindIn r e.name ≠ some e.kind ∧ err = misfitError e.name (kindIn r e.name) := by
  rw [foldlM_eq_error_iff]
  constructor
  · rintro ⟨before, e, after, m, hsplit, hbefore, he⟩
    rw [extendType_eq_error_iff, kindIn_foldlM_extendType hbefore] at he
    exact ⟨before, e, after, hsplit, exists_foldlM_extendType_iff.1 ⟨m, hbefore⟩, he⟩
  · rintro ⟨before, e, after, hsplit, hfits, he⟩
    obtain ⟨m, hbefore⟩ := exists_foldlM_extendType_iff.2 hfits
    rw [← kindIn_foldlM_extendType hbefore] at he
    exact ⟨before, e, after, m, hsplit, hbefore, extendType_eq_error_iff.2 he⟩

end

section

variable {document : Document} {r : Definitions}

theorem kindIn_eq_none_iff (h : Definitions.ofDocument document = .ok r) {name : String} :
    kindIn r.types name = none ↔ document.Lacks name := by
  rw [Option.eq_none_iff_forall_ne_some]
  simp only [ne_eq, kindIn_eq_some_iff h, Document.Lacks, not_exists, not_and]
  constructor
  · intro hnone d hd hname
    exact hnone d.kind d hd hname rfl
  · intro hlacks kind d hd hname
    exact absurd hname (hlacks d hd)

theorem kindIn_ne_iff (h : Definitions.ofDocument document = .ok r)
    {e : TypeDefinition WrittenField} :
    kindIn r.types e.name ≠ some e.kind ↔ document.Misfits e := by
  rw [Document.Misfits, ← kindIn_eq_none_iff h]
  cases hkind : kindIn r.types e.name with
  | none => simp
  | some kind =>
    obtain ⟨d, hd, hname, rfl⟩ := (kindIn_eq_some_iff h).1 hkind
    simp only [ne_eq, Option.some.injEq, reduceCtorEq, false_or, Document.DefinesOtherwise]
    constructor
    · intro hne
      exact ⟨d, hd, hname, hne⟩
    · rintro ⟨d', hd', hname', hne⟩
      -- nothing is repeated, so the two types are of one kind
      have hkind' := (kindIn_eq_some_iff h).2 ⟨d', hd', hname', rfl⟩
      rw [hkind] at hkind'
      rwa [Option.some.inj hkind']

/-- The extensions of a document are the ones that stand in it. -/
theorem mem_extensions_iff {e : TypeDefinition WrittenField} :
    e ∈ document.filterMap Definition.extension? ↔ .extend e ∈ document := by
  rw [List.mem_filterMap]
  constructor
  · rintro ⟨x, hx, hextension⟩
    cases x with
    | extend e' =>
      cases hextension
      exact hx
    | schema | type | directive => cases hextension
  · intro he
    exact ⟨_, he, rfl⟩

theorem extensions_split {before after : Document} {e : TypeDefinition WrittenField}
    (h : document = before ++ .extend e :: after) :
    document.filterMap Definition.extension? =
      before.filterMap Definition.extension? ++ e :: after.filterMap Definition.extension? := by
  rw [h, List.filterMap_append]
  rfl

/-- What stands before one of the extensions of a document holds the extensions before it. -/
theorem exists_split_of_extensions {extensions rest : List (TypeDefinition WrittenField)}
    {e : TypeDefinition WrittenField}
    (h : document.filterMap Definition.extension? = extensions ++ e :: rest) :
    ∃ before after : Document, document = before ++ .extend e :: after ∧
      before.filterMap Definition.extension? = extensions := by
  obtain ⟨before, tail, rfl, rfl, htail⟩ := List.filterMap_eq_append_iff.1 h
  obtain ⟨others, x, after, rfl, hothers, hx, -⟩ := List.filterMap_eq_cons_iff.1 htail
  cases x with
  | extend e' =>
    cases hx
    refine ⟨before ++ others, after, (List.append_assoc ..).symm, ?_⟩
    rw [List.filterMap_append, List.filterMap_eq_nil_iff.2 hothers, List.append_nil]
  | schema | type | directive => cases hx

theorem forall_kindIn_iff (h : Definitions.ofDocument document = .ok r) {before : Document} :
    (∀ x ∈ before.filterMap Definition.extension?, kindIn r.types x.name = some x.kind) ↔
      ∀ x, .extend x ∈ before → ¬ document.Misfits x := by
  simp only [mem_extensions_iff, ← kindIn_ne_iff h, ne_eq, not_not]

/-- Behind definitions that can be read, merging fails with the fault of the document. -/
theorem extensions_eq_error_iff (h : Definitions.ofDocument document = .ok r)
    {err : DocumentError} :
    (document.filterMap Definition.extension?).foldlM extendType r.types = .error err ↔
      document.Fault err := by
  have honce : ¬ document.Repeats :=
    Document.definesOnce_iff.1 (Definitions.exists_ofDocument_iff.1 ⟨r, h⟩)
  rw [foldlM_extendType_eq_error_iff]
  constructor
  · rintro ⟨extensions, e, rest, hextensions, hfits, hne, rfl⟩
    obtain ⟨before, after, hsplit, rfl⟩ := exists_split_of_extensions hextensions
    have hfirst := (forall_kindIn_iff h).1 hfits
    cases hkind : kindIn r.types e.name with
    | none => exact .undefined honce hsplit hfirst ((kindIn_eq_none_iff h).1 hkind)
    | some kind =>
      rcases (kindIn_ne_iff h).1 hne with hlacks | hother
      · rw [(kindIn_eq_none_iff h).2 hlacks] at hkind
        cases hkind
      · exact .otherKind honce hsplit hfirst hother
  · intro hfault
    cases hfault with
    | repeated split first defines earlier =>
      have herr := Definitions.ofDocument_eq_error_iff.2
        ⟨_, _, _, _, _, split, first, defines, earlier, rfl⟩
      rw [h] at herr
      cases herr
    | undefined once split first lacks =>
      refine ⟨_, _, _, extensions_split split, (forall_kindIn_iff h).2 first,
        (kindIn_ne_iff h).2 (.inl lacks), ?_⟩
      rw [(kindIn_eq_none_iff h).2 lacks]
      rfl
    | otherKind once split first otherwise =>
      refine ⟨_, _, _, extensions_split split, (forall_kindIn_iff h).2 first,
        (kindIn_ne_iff h).2 (.inr otherwise), ?_⟩
      obtain ⟨d, hd, hname, -⟩ := otherwise
      rw [(kindIn_eq_some_iff h).2 ⟨d, hd, hname, rfl⟩]
      rfl

end

/-! ## The error of a document -/

namespace Schema

theorem ofDocument_eq_error_iff {document : Document} {err : DocumentError} :
    ofDocument document = .error err ↔ document.Fault err := by
  have hsteps : ofDocument document = .error err ↔ Definitions.ofDocument document = .error err ∨
      ∃ r, Definitions.ofDocument document = .ok r ∧
        (document.filterMap Definition.extension?).foldlM extendType r.types = .error err := by
    simp [ofDocument, bind_eq_error_iff, pure, Except.pure]
  have hread : ¬ document.Repeats → document.Fault err →
      ∃ r, Definitions.ofDocument document = .ok r ∧
        (document.filterMap Definition.extension?).foldlM extendType r.types = .error err := by
    intro honce hfault
    obtain ⟨r, hdefs⟩ := Definitions.exists_ofDocument_iff.2 (Document.definesOnce_iff.2 honce)
    exact ⟨r, hdefs, (extensions_eq_error_iff hdefs).2 hfault⟩
  rw [hsteps]
  constructor
  · rintro (hdefs | ⟨r, hdefs, hext⟩)
    · obtain ⟨before, after, x, kind, name, hsplit, hfirst, hidentity, hearlier, rfl⟩ :=
        Definitions.ofDocument_eq_error_iff.1 hdefs
      exact .repeated hsplit hfirst hidentity hearlier
    · exact (extensions_eq_error_iff hdefs).1 hext
  · intro hfault
    cases hfault with
    | repeated split first defines earlier =>
      exact .inl (Definitions.ofDocument_eq_error_iff.2
        ⟨_, _, _, _, _, split, first, defines, earlier, rfl⟩)
    | undefined once split first lacks =>
      exact .inr (hread once (.undefined once split first lacks))
    | otherKind once split first otherwise =>
      exact .inr (hread once (.otherKind once split first otherwise))

/-- A document has no schema exactly if something is defined twice or an extension does not fit. -/
theorem exists_ofDocument_eq_error_iff {document : Document} :
    (∃ err, ofDocument document = .error err) ↔
      document.Repeats ∨ ∃ e, .extend e ∈ document ∧ document.Misfits e := by
  have hor : (∃ err, ofDocument document = .error err) ↔ ¬ ∃ s, ofDocument document = .ok s := by
    cases ofDocument document <;> simp
  rw [hor, exists_ofDocument_iff, Document.definesOnce_iff]
  by_cases hrepeats : document.Repeats
  · simp [hrepeats]
  · obtain ⟨r, hr⟩ := Definitions.exists_ofDocument_iff.2 (Document.definesOnce_iff.2 hrepeats)
    simp only [hrepeats, not_false_eq_true, true_and, false_or, Document.ExtendsOwnTypes,
      ← kindIn_eq_some_iff hr, ← kindIn_ne_iff hr, mem_extensions_iff, not_forall, ne_eq]
    simp

/-- **Which error a document gets.** There is one exactly if the document has two schema blocks, two
types or two directives of one name, or an extension of a name that is not defined as a type or is
defined as a type of another kind. It is that of the first definition that repeats an earlier one;
if there is none, that of the first extension that does not fit, and it says whether the name is
defined at all. -/
theorem ofDocument_refuses (document : Document) :
    ((∃ err, ofDocument document = .error err) ↔
      document.Repeats ∨ ∃ e, .extend e ∈ document ∧ document.Misfits e) ∧
    (∀ err, ofDocument document = .error err ↔ document.Fault err) ∧
    ∀ name,
      (DocumentError.extendsUndefined name).message =
        "cannot extend " ++ name ++ ": type is not defined" ∧
      (DocumentError.extendsOtherKind name).message =
        "cannot extend " ++ name ++ ": type is a different kind" :=
  ⟨exists_ofDocument_eq_error_iff, fun _ => ofDocument_eq_error_iff, fun _ => ⟨rfl, rfl⟩⟩

/-- An extension of nothing, then a directive that is defined twice, then a type that is. -/
def competingFaults : Document :=
  [.extend (.scalar ⟨"Date", none, [⟨"tag", []⟩]⟩),
    .type (.enum ⟨"Color", none, [], []⟩),
    .directive ⟨"tag", none, [], false, [.scalar]⟩,
    .directive ⟨"tag", none, [], false, [.enum]⟩,
    .type (.scalar ⟨"Color", none, []⟩)]

example : ofDocument competingFaults = .error (.duplicate .directive "tag") := rfl

end Schema

end SemanticNullability
