import Mathlib.Data.List.Forall2
import Mathlib.Tactic.ByContra
import SemanticNullability.Schema.OfDocument
import SemanticNullability.Proofs.Registry
import SemanticNullability.Proofs.Sequence
import SemanticNullability.Proofs.TypeDefinition
/-!
# Extensions are inlined

An extension may stand anywhere in a document and is merged when all definitions have been read. The
schema is the one of the document in which every type definition holds the parts of its extensions
already: `Document.inlined`, and `ofDocument_inlined` says so. On the way the registries of a read
document are spelled out: the definitions are registered in their order (`foldlM_add_eq_ok_iff`), and
merging puts behind each definition the parts of its own extensions, in their order
(`entries_foldlM_extendType`). It succeeds exactly if each extension is of the kind of what bears its
name (`exists_foldlM_extendType_iff`). `ofDocument_eq_ok` is all of this together.
-/
namespace SemanticNullability

/-! ## The parts of a definition -/

namespace TypeDefinition

variable {φ ψ : Type}

def interfaces : TypeDefinition φ → List String
  | object t => t.interfaces
  | interface t => t.interfaces
  | _ => []

def directives : TypeDefinition φ → List Directive
  | object t => t.directives
  | interface t => t.directives
  | union t => t.directives
  | scalar t => t.directives
  | enum t => t.directives
  | inputObject t => t.directives

def members : TypeDefinition φ → List String
  | union t => t.members
  | _ => []

def values : TypeDefinition φ → List EnumValue
  | enum t => t.values
  | _ => []

def inputFields : TypeDefinition φ → List InputValue
  | inputObject t => t.fields
  | _ => []

/-- The definition with the parts of others behind its own: the parts that a definition of its kind
has. -/
def withParts (others : List (TypeDefinition φ)) : TypeDefinition φ → TypeDefinition φ
  | object t =>
    object { t with
      interfaces := t.interfaces ++ others.flatMap interfaces
      directives := t.directives ++ others.flatMap directives
      fields := t.fields ++ others.flatMap fields }
  | interface t =>
    interface { t with
      interfaces := t.interfaces ++ others.flatMap interfaces
      directives := t.directives ++ others.flatMap directives
      fields := t.fields ++ others.flatMap fields }
  | union t =>
    union { t with
      directives := t.directives ++ others.flatMap directives
      members := t.members ++ others.flatMap members }
  | scalar t => scalar { t with directives := t.directives ++ others.flatMap directives }
  | enum t =>
    enum { t with
      directives := t.directives ++ others.flatMap directives
      values := t.values ++ others.flatMap values }
  | inputObject t =>
    inputObject { t with
      directives := t.directives ++ others.flatMap directives
      fields := t.fields ++ others.flatMap inputFields }

@[simp] theorem name_withParts (others : List (TypeDefinition φ)) (d : TypeDefinition φ) :
    (d.withParts others).name = d.name := by
  cases d <;> rfl

@[simp] theorem kind_withParts (others : List (TypeDefinition φ)) (d : TypeDefinition φ) :
    (d.withParts others).kind = d.kind := by
  cases d <;> rfl

/-- The fields of an extended definition are those of the definition and of the extensions. -/
theorem mem_fields_withParts {es : List (TypeDefinition φ)} {d : TypeDefinition φ} {f : φ}
    (h : f ∈ (d.withParts es).fields) :
    f ∈ d.fields ∨ ∃ e ∈ es, f ∈ e.fields := by
  cases d with
  | object t | interface t =>
    exact (List.mem_append.1 h).imp_right List.mem_flatMap.1
  | union t | scalar t | enum t | inputObject t => cases h

@[simp] theorem withParts_nil (d : TypeDefinition φ) : d.withParts [] = d := by
  cases d <;> simp [withParts]

theorem withParts_append (es fs : List (TypeDefinition φ)) (d : TypeDefinition φ) :
    d.withParts (es ++ fs) = (d.withParts es).withParts fs := by
  cases d <;> simp [withParts]

/-- An extension that fits adds its parts. -/
theorem append?_eq_withParts {d e r : TypeDefinition φ} (h : d.append? e = some r) :
    r = d.withParts [e] := by
  cases d <;> cases e <;> cases h <;>
    simp [withParts, FieldedType.append, interfaces, directives, fields, members, values,
      inputFields]

theorem kind_of_append? {d e r : TypeDefinition φ} (h : d.append? e = some r) : e.kind = d.kind := by
  cases d <;> cases e <;> cases h <;> rfl

/-- Behind its own fields a definition gets those of the others, if they are of its kind. -/
theorem fields_withParts {es : List (TypeDefinition φ)} {d : TypeDefinition φ}
    (h : ∀ e ∈ es, e.kind = d.kind) :
    (d.withParts es).fields = d.fields ++ es.flatMap fields := by
  have hnone : d.kind ≠ .object → d.kind ≠ .interface → es.flatMap fields = [] := by
    intro hobj hint
    refine List.flatMap_eq_nil_iff.2 fun e he => ?_
    have hkind := h e he
    cases e <;> first | rfl | exact absurd hkind.symm hobj | exact absurd hkind.symm hint
  cases d with
  | object t => rfl
  | interface t => rfl
  | union t | scalar t | enum t | inputObject t =>
    rw [hnone (by simp [kind]) (by simp [kind])]
    rfl

theorem interfaces_mapFields (g : φ → ψ) (d : TypeDefinition φ) :
    (d.mapFields g).interfaces = d.interfaces := by
  cases d <;> rfl

theorem directives_mapFields (g : φ → ψ) (d : TypeDefinition φ) :
    (d.mapFields g).directives = d.directives := by
  cases d <;> rfl

theorem members_mapFields (g : φ → ψ) (d : TypeDefinition φ) :
    (d.mapFields g).members = d.members := by
  cases d <;> rfl

theorem values_mapFields (g : φ → ψ) (d : TypeDefinition φ) :
    (d.mapFields g).values = d.values := by
  cases d <;> rfl

theorem inputFields_mapFields (g : φ → ψ) (d : TypeDefinition φ) :
    (d.mapFields g).inputFields = d.inputFields := by
  cases d <;> rfl

theorem mapFields_withParts (g : φ → ψ) (es : List (TypeDefinition φ)) (d : TypeDefinition φ) :
    (d.withParts es).mapFields g = (d.mapFields g).withParts (es.map (mapFields g)) := by
  have hinterfaces : (es.map (mapFields g)).flatMap interfaces = es.flatMap interfaces := by
    simp only [List.flatMap_map, interfaces_mapFields]
  have hdirectives : (es.map (mapFields g)).flatMap directives = es.flatMap directives := by
    simp only [List.flatMap_map, directives_mapFields]
  have hfields : (es.map (mapFields g)).flatMap fields = (es.flatMap fields).map g := by
    simp only [List.flatMap_map, fields_mapFields, List.map_flatMap]
  have hmembers : (es.map (mapFields g)).flatMap members = es.flatMap members := by
    simp only [List.flatMap_map, members_mapFields]
  have hvalues : (es.map (mapFields g)).flatMap values = es.flatMap values := by
    simp only [List.flatMap_map, values_mapFields]
  have hinput : (es.map (mapFields g)).flatMap inputFields = es.flatMap inputFields := by
    simp only [List.flatMap_map, inputFields_mapFields]
  cases d <;>
    simp only [withParts, mapFields, FieldedType.mapFields, List.map_append, hinterfaces,
      hdirectives, hfields, hmembers, hvalues, hinput]

end TypeDefinition

/-! ## The definitions of a document -/

def Definition.type? : Definition → Option (TypeDefinition WrittenField)
  | .type d => some d
  | _ => none

def Definition.directive? : Definition → Option DirectiveDefinition
  | .directive d => some d
  | _ => none

def Definition.block? : Definition → Option SchemaBlock
  | .schema block => some block
  | _ => none

namespace Document

def types (document : Document) : List (TypeDefinition WrittenField) :=
  document.filterMap Definition.type?

def directives (document : Document) : List DirectiveDefinition :=
  document.filterMap Definition.directive?

/-- The extensions of a type, in the order of the document. -/
def extensionsOf (document : Document) (name : String) : List (TypeDefinition WrittenField) :=
  (document.filterMap Definition.extension?).filter (·.name = name)

/-- A type with the parts of all its extensions. -/
def extended (document : Document) (d : TypeDefinition WrittenField) :
    TypeDefinition WrittenField :=
  d.withParts (document.extensionsOf d.name)

/-- What becomes of a definition when extensions are inlined. -/
def inline? (document : Document) : Definition → Option Definition
  | .type d => some (.type (document.extended d))
  | .extend _ => none
  | definition => some definition

/-- The document in which every type definition holds the parts of its extensions and no extension
is left. -/
def inlined (document : Document) : Document := document.filterMap document.inline?

theorem types_inlined (document : Document) :
    document.inlined.types = document.types.map document.extended := by
  rw [types, inlined, types, List.filterMap_filterMap, List.map_filterMap]
  refine List.filterMap_congr fun x _ => ?_
  cases x <;> rfl

theorem directives_inlined (document : Document) :
    document.inlined.directives = document.directives := by
  rw [directives, inlined, directives, List.filterMap_filterMap]
  refine List.filterMap_congr fun x _ => ?_
  cases x <;> rfl

theorem blocks_inlined (document : Document) :
    document.inlined.filterMap Definition.block? = document.filterMap Definition.block? := by
  rw [inlined, List.filterMap_filterMap]
  refine List.filterMap_congr fun x _ => ?_
  cases x <;> rfl

theorem extensions_inlined (document : Document) :
    document.inlined.filterMap Definition.extension? = [] := by
  rw [inlined, List.filterMap_filterMap, List.filterMap_eq_nil_iff]
  intro x _
  cases x <;> rfl

end Document

/-! ## Reading definitions -/

namespace Definitions

/-- What a registry holds when the types have been read. -/
def typeEntries (types : List (TypeDefinition WrittenField)) :
    List (String × TypeDefinition Field) :=
  types.map fun d => (d.name, d.mapFields Field.ofWritten)

/-- What a registry holds when the directive definitions have been read. -/
def directiveEntries (directives : List DirectiveDefinition) :
    List (String × DirectiveDefinition) :=
  directives.map fun d => (d.name, d)

/-- What has been read when a document has been read behind `d`. -/
structure ReadBehind (d : Definitions) (document : Document) (r : Definitions) : Prop where
  types : r.types.entries = d.types.entries ++ typeEntries document.types
  directives : r.directives.entries = d.directives.entries ++ directiveEntries document.directives
  block : r.block.toList = d.block.toList ++ document.filterMap Definition.block?

theorem ext_parts {d r : Definitions} (htypes : d.types.entries = r.types.entries)
    (hdirectives : d.directives.entries = r.directives.entries)
    (hblock : d.block.toList = r.block.toList) : d = r := by
  obtain ⟨types, directives, block⟩ := d
  obtain ⟨types', directives', block'⟩ := r
  obtain rfl : types = types' := Registry.ext_entries htypes
  obtain rfl : directives = directives' := Registry.ext_entries hdirectives
  obtain rfl : block = block' := by cases block <;> cases block' <;> simp_all
  rfl

theorem add_schema_eq_ok_iff {d r : Definitions} {block : SchemaBlock} :
    d.add (.schema block) = .ok r ↔ d.ReadBehind [.schema block] r := by
  cases hblock : d.block with
  | some earlier =>
    constructor
    · intro h
      simp [add, hblock] at h
    · intro h
      -- a block cannot stand behind another
      have htwo : r.block.toList = [earlier, block] := by
        rw [h.block, hblock]
        rfl
      cases hr : r.block <;> simp [hr] at htwo
  | none =>
    have hadd : d.add (.schema block) = .ok { d with block := some block } := by
      simp [add, hblock]
    rw [hadd]
    constructor
    · intro h
      cases h
      exact ⟨(List.append_nil _).symm, (List.append_nil _).symm, by rw [hblock]; rfl⟩
    · intro h
      refine congrArg Except.ok (ext_parts ?_ ?_ ?_)
      · exact (h.types.trans (List.append_nil _)).symm
      · exact (h.directives.trans (List.append_nil _)).symm
      · rw [h.block, hblock]
        rfl

theorem add_type_eq_ok_iff {d r : Definitions} {definition : TypeDefinition WrittenField} :
    d.add (.type definition) = .ok r ↔ d.ReadBehind [.type definition] r := by
  constructor
  · intro h
    rw [add] at h
    split at h
    · cases h
    · rename_i hnew
      cases h
      refine ⟨?_, (List.append_nil _).symm, (List.append_nil _).symm⟩
      exact Registry.entries_insert_of_new (eq_false_of_ne_true hnew) _
  · intro h
    have hnew := Registry.contains_eq_false_of_entries h.types
    rw [add, hnew]
    refine congrArg Except.ok (ext_parts ?_ ?_ ?_)
    · exact (Registry.entries_insert_of_new hnew _).trans h.types.symm
    · exact (h.directives.trans (List.append_nil _)).symm
    · exact (h.block.trans (List.append_nil _)).symm

theorem add_directive_eq_ok_iff {d r : Definitions} {definition : DirectiveDefinition} :
    d.add (.directive definition) = .ok r ↔ d.ReadBehind [.directive definition] r := by
  constructor
  · intro h
    rw [add] at h
    split at h
    · cases h
    · rename_i hnew
      cases h
      refine ⟨(List.append_nil _).symm, ?_, (List.append_nil _).symm⟩
      exact Registry.entries_insert_of_new (eq_false_of_ne_true hnew) _
  · intro h
    have hnew := Registry.contains_eq_false_of_entries h.directives
    rw [add, hnew]
    refine congrArg Except.ok (ext_parts ?_ ?_ ?_)
    · exact (h.types.trans (List.append_nil _)).symm
    · exact (Registry.entries_insert_of_new hnew _).trans h.directives.symm
    · exact (h.block.trans (List.append_nil _)).symm

theorem readBehind_nil_iff {d r : Definitions} : d.ReadBehind [] r ↔ d = r := by
  constructor
  · rintro ⟨htypes, hdirectives, hblock⟩
    exact ext_parts (htypes.trans (List.append_nil _)).symm
      (hdirectives.trans (List.append_nil _)).symm (hblock.trans (List.append_nil _)).symm
  · rintro rfl
    exact ⟨(List.append_nil _).symm, (List.append_nil _).symm, (List.append_nil _).symm⟩

/-- Reading one more definition succeeds exactly if it repeats none. -/
theorem add_eq_ok_iff {d r : Definitions} {x : Definition} :
    d.add x = .ok r ↔ d.ReadBehind [x] r := by
  cases x with
  | schema block => exact add_schema_eq_ok_iff
  | type definition => exact add_type_eq_ok_iff
  | directive definition => exact add_directive_eq_ok_iff
  | extend extension =>
    have hnil : d.ReadBehind [.extend extension] r ↔ d.ReadBehind [] r := by
      constructor <;> exact fun h => ⟨h.types, h.directives, h.block⟩
    rw [hnil, readBehind_nil_iff]
    exact Except.ok.injEq d r ▸ Iff.rfl

/-- What begins a list of at most one has at most one itself. -/
theorem toList_head?_of_append {α : Type} {o : Option α} {l rest : List α}
    (h : o.toList = l ++ rest) : l.head?.toList = l := by
  cases l with
  | nil => rfl
  | cons a l =>
    cases o with
    | none => cases h
    | some b =>
      obtain ⟨-, hnil⟩ := List.cons.inj h
      rw [(List.append_eq_nil_iff.1 hnil.symm).1]
      rfl

/-- What has been read behind the first definition has been read in two steps. -/
theorem readBehind_cons_iff {d r : Definitions} {x : Definition} {rest : Document} :
    d.ReadBehind (x :: rest) r ↔ ∃ m, d.ReadBehind [x] m ∧ m.ReadBehind rest r := by
  have htypes : typeEntries (Document.types (x :: rest)) =
      typeEntries (Document.types [x]) ++ typeEntries (Document.types rest) := by
    rw [typeEntries, typeEntries, typeEntries, ← List.map_append]
    exact congrArg _ (List.filterMap_append (l := [x]))
  have hdirectives : directiveEntries (Document.directives (x :: rest)) =
      directiveEntries (Document.directives [x]) ++
        directiveEntries (Document.directives rest) := by
    rw [directiveEntries, directiveEntries, directiveEntries, ← List.map_append]
    exact congrArg _ (List.filterMap_append (l := [x]))
  have hblock : List.filterMap Definition.block? (x :: rest) =
      List.filterMap Definition.block? [x] ++ List.filterMap Definition.block? rest :=
    List.filterMap_append (l := [x])
  constructor
  · intro h
    have ht := h.types
    have hd := h.directives
    have hb := h.block
    rw [htypes, ← List.append_assoc] at ht
    rw [hdirectives, ← List.append_assoc] at hd
    rw [hblock, ← List.append_assoc] at hb
    have htnodup := r.types.nodup
    have hdnodup := r.directives.nodup
    rw [ht, List.map_append] at htnodup
    rw [hd, List.map_append] at hdnodup
    have hone := toList_head?_of_append hb
    exact ⟨⟨⟨_, (List.nodup_append.1 htnodup).1⟩, ⟨_, (List.nodup_append.1 hdnodup).1⟩, _⟩,
      ⟨rfl, rfl, hone⟩, ⟨ht, hd, hb.trans (congrArg (· ++ _) hone.symm)⟩⟩
  · rintro ⟨m, hm, hr⟩
    refine ⟨?_, ?_, ?_⟩
    · rw [hr.types, hm.types, htypes, List.append_assoc]
    · rw [hr.directives, hm.directives, hdirectives, List.append_assoc]
    · rw [hr.block, hm.block, hblock, List.append_assoc]

/-- **Reading definitions.** It succeeds exactly if there are registries that hold the definitions of
the document, in order, behind those that were there, and a block if it is the only one. -/
theorem foldlM_add_eq_ok_iff {d r : Definitions} {document : Document} :
    document.foldlM add d = .ok r ↔ d.ReadBehind document r := by
  induction document generalizing d with
  | nil =>
    rw [readBehind_nil_iff]
    exact Except.ok.injEq d r ▸ Iff.rfl
  | cons x rest ih =>
    rw [foldlM_cons_eq_ok_iff, readBehind_cons_iff]
    simp only [add_eq_ok_iff, ih]

end Definitions

/-! ## Merging extensions -/

/-- What a registry holds when each definition has got the parts of its own extensions. -/
def extendedEntries (extensions : List (TypeDefinition WrittenField))
    (entries : List (String × TypeDefinition Field)) : List (String × TypeDefinition Field) :=
  entries.map fun e => (e.1, e.2.withParts
    ((extensions.filter (·.name = e.1)).map (TypeDefinition.mapFields Field.ofWritten)))

theorem extendedEntries_cons (extension : TypeDefinition WrittenField)
    (rest : List (TypeDefinition WrittenField)) (entries : List (String × TypeDefinition Field)) :
    extendedEntries (extension :: rest) entries =
      extendedEntries rest (extendedEntries [extension] entries) := by
  simp only [extendedEntries, List.map_map]
  refine List.map_congr_left fun e _ => ?_
  have hfilter : (extension :: rest).filter (·.name = e.1) =
      [extension].filter (·.name = e.1) ++ rest.filter (·.name = e.1) := by
    rw [← List.filter_append, List.singleton_append]
  rw [hfilter, List.map_append, TypeDefinition.withParts_append]
  rfl

section

variable {r r' : Registry (TypeDefinition Field)} {e : TypeDefinition WrittenField}
  {extensions : List (TypeDefinition WrittenField)}

/-- An extension is merged into the definition of its name, if it is of its kind. -/
theorem extendType_eq_ok (h : extendType r e = .ok r') :
    ∃ definition merged, r.find? e.name = some definition ∧
      definition.append? (e.mapFields Field.ofWritten) = some merged ∧
      r' = r.insert e.name merged := by
  rw [extendType] at h
  split at h
  · cases h
  · rename_i definition hfind
    split at h
    · cases h
    · rename_i merged hmerged
      exact ⟨definition, merged, hfind, hmerged, (Except.ok.inj h).symm⟩

/-- Merging an extension leaves all definitions in place and adds to the one that it extends. -/
theorem entries_extendType (h : extendType r e = .ok r') :
    r'.entries = extendedEntries [e] r.entries := by
  obtain ⟨definition, merged, hfind, hmerged, rfl⟩ := extendType_eq_ok h
  have hentry := Registry.find?_eq_some_iff.1 hfind
  have hmem : e.name ∈ r.keys := List.mem_map_of_mem (f := Prod.fst) hentry
  have hinsert : (r.insert e.name merged).entries = Registry.replaceIn e.name merged r.entries := by
    simp [Registry.insert, Registry.contains_iff, hmem]
  rw [hinsert, Registry.replaceIn, extendedEntries]
  refine List.map_congr_left fun x hx => ?_
  by_cases hname : x.1 = e.name
  · have hsame : x.2 = definition := by
      have hfound : r.find? e.name = some x.2 := Registry.find?_eq_some_iff.2 (hname ▸ hx)
      rw [hfind] at hfound
      exact (Option.some.inj hfound).symm
    rw [TypeDefinition.append?_eq_withParts hmerged]
    simp [hname, hsame]
  · have hother : ¬ e.name = x.1 := fun heq => hname heq.symm
    simp [hname, hother]

/-- **Merging.** Each definition gets the parts of its own extensions, in their order. -/
theorem entries_foldlM_extendType (h : extensions.foldlM extendType r = .ok r') :
    r'.entries = extendedEntries extensions r.entries := by
  induction extensions generalizing r with
  | nil =>
    cases h
    simp [extendedEntries]
  | cons e rest ih =>
    obtain ⟨m, hstep, hrest⟩ := foldlM_cons_eq_ok_iff.1 h
    rw [extendedEntries_cons, ← entries_extendType hstep]
    exact ih hrest

end

/-! ## Kinds of what is extended -/

/-- The kind of the definition that bears a name. -/
def kindIn (r : Registry (TypeDefinition Field)) (name : String) : Option TypeKind :=
  (r.find? name).map (·.kind)

/-- The error of an extension that does not fit, from the kind of the type that bears the name. -/
def misfitError (name : String) : Option TypeKind → DocumentError
  | none => .extendsUndefined name
  | some _ => .extendsOtherKind name

section

variable {r r' : Registry (TypeDefinition Field)} {e : TypeDefinition WrittenField}
  {extensions : List (TypeDefinition WrittenField)}

theorem extendType_eq_error_iff {err : DocumentError} :
    extendType r e = .error err ↔
      kindIn r e.name ≠ some e.kind ∧ err = misfitError e.name (kindIn r e.name) := by
  unfold extendType kindIn
  cases hfind : r.find? e.name with
  | none => simp [misfitError, eq_comm]
  | some d =>
    cases hmerge : d.append? (e.mapFields Field.ofWritten) with
    | none =>
      have hkind := TypeDefinition.append?_eq_none_iff.1 hmerge
      rw [TypeDefinition.kind_mapFields] at hkind
      simp [hmerge, hkind, misfitError, eq_comm]
    | some merged =>
      have hkind := TypeDefinition.kind_of_append? hmerge
      rw [TypeDefinition.kind_mapFields] at hkind
      simp [hmerge, hkind]

theorem exists_extendType_iff :
    (∃ r', extendType r e = .ok r') ↔ kindIn r e.name = some e.kind := by
  constructor
  · rintro ⟨r', h⟩
    by_contra hkind
    cases h.symm.trans (extendType_eq_error_iff.2 ⟨hkind, rfl⟩)
  · intro hkind
    cases h : extendType r e with
    | error err => exact absurd hkind (extendType_eq_error_iff.1 h).1
    | ok r' => exact ⟨r', rfl⟩

/-- Merging changes the kind of no name. -/
theorem kindIn_extendType (h : extendType r e = .ok r') (name : String) :
    kindIn r' name = kindIn r name := by
  obtain ⟨definition, merged, hfind, hmerged, rfl⟩ := extendType_eq_ok h
  unfold kindIn
  rw [Registry.find?_insert]
  by_cases hname : name = e.name
  · rw [if_pos hname, hname, hfind, Option.map_some, Option.map_some,
      TypeDefinition.kind_append? hmerged]
  · rw [if_neg hname]

theorem kindIn_foldlM_extendType (h : extensions.foldlM extendType r = .ok r') (name : String) :
    kindIn r' name = kindIn r name := by
  induction extensions generalizing r with
  | nil =>
    cases h
    rfl
  | cons e rest ih =>
    obtain ⟨m, hstep, hrest⟩ := foldlM_cons_eq_ok_iff.1 h
    exact (ih hrest).trans (kindIn_extendType hstep name)

/-- Merging succeeds exactly if each extension is of the kind of what bears its name. -/
theorem exists_foldlM_extendType_iff :
    (∃ r', extensions.foldlM extendType r = .ok r') ↔
      ∀ e ∈ extensions, kindIn r e.name = some e.kind := by
  induction extensions generalizing r with
  | nil => exact ⟨fun _ _ h => absurd h List.not_mem_nil, fun _ => ⟨r, rfl⟩⟩
  | cons e rest ih =>
    rw [List.forall_mem_cons, ← exists_extendType_iff]
    constructor
    · rintro ⟨r', h⟩
      obtain ⟨m, hstep, hrest⟩ := foldlM_cons_eq_ok_iff.1 h
      refine ⟨⟨m, hstep⟩, fun x hx => ?_⟩
      rw [← kindIn_extendType hstep]
      exact ih.1 ⟨r', hrest⟩ x hx
    · rintro ⟨⟨m, hstep⟩, hkinds⟩
      obtain ⟨r', hrest⟩ := ih.2 fun x hx => (kindIn_extendType hstep x.name).trans (hkinds x hx)
      exact ⟨r', foldlM_cons_eq_ok_iff.2 ⟨m, hstep, hrest⟩⟩

end

/-! ## The schema of a document -/

namespace Schema

/-- **The registries of a document.** A document that has a schema has a registry of its types, each
extended and its fields read, in the order of the document, a registry of its directive definitions
and at most one block. -/
theorem ofDocument_eq_ok {document : Document} {s : Schema} (h : ofDocument document = .ok s) :
    ∃ block, s = withBlock ⟨Roots.none, [], s.types, s.directiveDefinitions⟩ block ∧
      block.toList = document.filterMap Definition.block? ∧
      s.types.entries = Definitions.typeEntries (document.types.map document.extended) ∧
      s.directiveDefinitions.entries = Definitions.directiveEntries document.directives ∧
      ∀ d ∈ document.types, ∀ e ∈ document.extensionsOf d.name, e.kind = d.kind := by
  rw [ofDocument] at h
  obtain ⟨definitions, hdefs, h⟩ := bind_eq_ok_iff.1 h
  obtain ⟨types, htypes, h⟩ := bind_eq_ok_iff.1 h
  have hread := Definitions.foldlM_add_eq_ok_iff.1 hdefs
  have hs : withBlock ⟨Roots.none, [], types, definitions.directives⟩ definitions.block = s :=
    Except.ok.inj h
  have hst : s.types = types := by
    rw [← hs]
    cases definitions.block <;> rfl
  have hsd : s.directiveDefinitions = definitions.directives := by
    rw [← hs]
    cases definitions.block <;> rfl
  refine ⟨definitions.block, ?_, hread.block, ?_, ?_, ?_⟩
  · rw [hst, hsd, hs]
  · have hempty : Definitions.empty.types.entries = [] := rfl
    rw [hst, entries_foldlM_extendType htypes, hread.types, hempty, List.nil_append]
    simp only [extendedEntries, Definitions.typeEntries, List.map_map]
    refine List.map_congr_left fun d _ => ?_
    simp only [Function.comp, Document.extended, TypeDefinition.name_withParts,
      TypeDefinition.mapFields_withParts]
    rfl
  · rw [hsd, hread.directives]
    rfl
  · intro d hd e he
    obtain ⟨hmem, hname⟩ := List.mem_filter.1 he
    have hentry : (e.name, d.mapFields Field.ofWritten) ∈ definitions.types.entries := by
      rw [of_decide_eq_true hname, hread.types]
      exact List.mem_append_right _ (List.mem_map.2 ⟨d, hd, rfl⟩)
    have hkind := exists_foldlM_extendType_iff.1 ⟨types, htypes⟩ e hmem
    rw [kindIn, Registry.find?_eq_some_iff.2 hentry, Option.map_some, Option.some_inj,
      TypeDefinition.kind_mapFields] at hkind
    exact hkind.symm

/-- A document without extensions has a schema exactly if its definitions can be read. -/
theorem ofDocument_of_no_extension {document : Document} {definitions : Definitions}
    (hext : document.filterMap Definition.extension? = [])
    (hread : Definitions.empty.ReadBehind document definitions) :
    ofDocument document =
      .ok (withBlock ⟨Roots.none, [], definitions.types, definitions.directives⟩
        definitions.block) := by
  have hdefs : Definitions.ofDocument document = .ok definitions :=
    Definitions.foldlM_add_eq_ok_iff.2 hread
  rw [ofDocument, hdefs, hext]
  rfl

theorem ofDocument_inlined_eq {document : Document} {s : Schema}
    (h : ofDocument document = .ok s) : ofDocument document.inlined = .ok s := by
  obtain ⟨block, hs, hblock, htypes, hdirectives, _⟩ := ofDocument_eq_ok h
  have hread : Definitions.empty.ReadBehind document.inlined
      ⟨s.types, s.directiveDefinitions, block⟩ := by
    refine ⟨?_, ?_, ?_⟩
    · rw [htypes, Document.types_inlined]
      rfl
    · rw [hdirectives, Document.directives_inlined]
      rfl
    · rw [hblock, Document.blocks_inlined]
      rfl
  have hok := ofDocument_of_no_extension (Document.extensions_inlined document) hread
  exact hok.trans (congrArg Except.ok hs.symm)

end Schema

/-! ## The fields of a read type -/

/-- The field `f` is what a schema holds of the written field `w`. -/
structure Field.ReadFrom (w : WrittenField) (f : Field) : Prop where
  name : f.name = w.name
  description : f.description = w.description
  arguments : f.arguments = w.arguments
  type : f.type = TypeExpr.ofWritten w.type
  directives : f.directives = w.directives.filter (·.name ≠ semanticNonNullName)
  semantic : f.semantic =
    (w.directives.filter (·.name = semanticNonNullName)).head?.map Levels.ofDirective

theorem Field.readFrom_ofWritten (w : WrittenField) : Field.ReadFrom w (Field.ofWritten w) where
  name := rfl
  description := rfl
  arguments := rfl
  type := rfl
  directives := by
    refine List.filter_congr fun d _ => ?_
    by_cases h : d.name = semanticNonNullName <;> simp [Directive.isSemantic, h]
  semantic := by
    have hpred : Directive.isSemantic = fun d => decide (d.name = semanticNonNullName) :=
      funext fun d => by
        by_cases h : d.name = semanticNonNullName <;> simp [Directive.isSemantic, h]
    simp only [Field.ofWritten, List.head?_filter, hpred]

namespace Schema

/-- **Extensions are inlined.** A document with a schema has the schema of the document in which each
type definition holds the parts of its extensions and in which no extension is left. The types are
registered in the order of their definitions. Each has the fields of its definition and then those of
its extensions, read one by one. -/
theorem ofDocument_inlined {document : Document} {s : Schema} (h : ofDocument document = .ok s) :
    ofDocument document.inlined = .ok s ∧
    document.inlined.filterMap Definition.extension? = [] ∧
    s.types.keys = document.types.map TypeDefinition.name ∧
    ∀ d ∈ document.types, ∃ r, s.type? d.name = some r ∧ r.kind = d.kind ∧
      List.Forall₂ Field.ReadFrom
        (d.fields ++ (document.extensionsOf d.name).flatMap TypeDefinition.fields) r.fields := by
  refine ⟨ofDocument_inlined_eq h, Document.extensions_inlined document, ?_, ?_⟩
  all_goals obtain ⟨block, _, _, htypes, _, hkinds⟩ := ofDocument_eq_ok h
  · rw [Registry.keys, htypes, Definitions.typeEntries, List.map_map, List.map_map]
    refine List.map_congr_left fun d _ => ?_
    simp [Document.extended]
  · intro d hd
    refine ⟨(document.extended d).mapFields Field.ofWritten, ?_, ?_, ?_⟩
    · rw [type?, Registry.find?_eq_some_iff, htypes]
      refine List.mem_map.2 ⟨document.extended d, List.mem_map_of_mem hd, ?_⟩
      rw [Document.extended, TypeDefinition.name_withParts]
    · rw [TypeDefinition.kind_mapFields, Document.extended, TypeDefinition.kind_withParts]
    · rw [TypeDefinition.fields_mapFields, Document.extended,
        TypeDefinition.fields_withParts (hkinds d hd), List.forall₂_map_right_iff]
      exact List.forall₂_same.2 fun w _ => Field.readFrom_ofWritten w

/-- A type whose extensions stand before and behind it, with those of another between them. -/
def scatteredExtensions : Document :=
  let field (name : String) (directives : List Directive) : WrittenField :=
    ⟨name, none, [], .named "Int", directives⟩
  [.extend (.object ⟨"Query", none, [], [], [field "b" [⟨"semanticNonNull", []⟩]]⟩),
    .type (.enum ⟨"Color", none, [], [⟨"RED", none, []⟩]⟩),
    .type (.object ⟨"Query", some "root", [], [], [field "a" []]⟩),
    .extend (.enum ⟨"Color", none, [⟨"tag", []⟩], [⟨"BLUE", none, []⟩]⟩),
    .extend (.object ⟨"Query", none, ["Node"], [], [field "c" [⟨"deprecated", []⟩]]⟩),
    .type (.interface ⟨"Node", none, [], [], [field "a" []]⟩)]

theorem ofDocument_inlined_scatteredExtensions :
    ∃ s, ofDocument scatteredExtensions = .ok s ∧
      ofDocument scatteredExtensions.inlined = .ok s ∧
      s.types.keys = ["Color", "Query", "Node"] ∧
      ((s.type? "Query").map fun d => d.fields.map fun f => (f.name, f.semantic)) =
        some [("a", none), ("b", some Levels.outer), ("c", none)] := by
  refine ⟨_, rfl, ?_⟩
  obtain ⟨hinlined, _, hkeys, _⟩ :=
    ofDocument_inlined (show ofDocument scatteredExtensions = .ok _ from rfl)
  exact ⟨hinlined, hkeys, rfl⟩

end Schema

end SemanticNullability
