import Mathlib.Tactic.MkIffOfInductiveProp
import SemanticNullability.Validation
import SemanticNullability.Proofs.Extension
/-!
# What a schema has to satisfy

`Schema.IsValid` says in plain terms when a schema is valid. A rule of it at one place is a
`Requirement`, and `Schema.requirements` lists all of them, those of the roots first and then those
of each definition in the order of registration. Validation reports the requirements that are not
met, each of them once and in this order: `problems_eq_unmet`.
-/
namespace SemanticNullability

/-! ## What a name stands for -/

/-- A name stands for the kind of the definition registered under it, and for a scalar if nothing is
registered under it and it is a built-in scalar. -/
inductive Schema.StandsFor (s : Schema) (name : String) : TypeKind → Prop where
  | registered (d : TypeDefinition Field) (h : (name, d) ∈ s.types.entries) : StandsFor s name d.kind
  | builtin (hfree : name ∉ s.types.keys) (h : name ∈ builtinScalars) : StandsFor s name .scalar

theorem Schema.kindOf?_eq_some_iff {s : Schema} {name : String} {kind : TypeKind} :
    s.kindOf? name = some kind ↔ s.StandsFor name kind := by
  unfold kindOf? type?
  constructor
  · intro h
    cases hd : s.types.find? name with
    | some d =>
      simp only [hd, Option.some.injEq] at h
      subst h
      exact .registered d (Registry.find?_eq_some_iff.1 hd)
    | none =>
      simp only [hd] at h
      by_cases hb : isBuiltinScalar name = true
      · simp only [hb, if_true, Option.some.injEq] at h
        subst h
        exact .builtin (Registry.find?_eq_none_iff.1 hd) (isBuiltinScalar_iff.1 hb)
      · simp [hb] at h
  · rintro (⟨d, h⟩ | ⟨hfree, h⟩)
    · simp only [Registry.find?_eq_some_iff.2 h]
    · simp only [Registry.find?_eq_none_iff.2 hfree, isBuiltinScalar_iff.2 h, if_true]

/-! ## Valid schemas -/

namespace Schema

/-- Whether everything that a field names is there and may be used so. -/
@[mk_iff]
structure AdmitsField (s : Schema) (f : Field) : Prop where
  type : ∃ kind, s.StandsFor f.type.baseName kind ∧ kind ≠ .inputObject
  arguments : ∀ a ∈ f.arguments, ∃ kind, s.StandsFor a.type.baseName kind ∧
    (kind = .scalar ∨ kind = .enum ∨ kind = .inputObject)
  levels : f.semantic ≠ none → semanticNonNullName ∈ s.directiveDefinitions.keys
  directives : ∀ x ∈ f.directives,
    x.name = "deprecated" ∨ x.name ∈ s.directiveDefinitions.keys

/-- Whether a definition is neither reserved nor empty, and everything that it names is there and may
be used so. -/
@[mk_iff]
structure Admits (s : Schema) (d : TypeDefinition Field) : Prop where
  name : ¬ ['_', '_'] <+: d.name.toList
  hasFields : d.kind = .object ∨ d.kind = .interface → d.fields ≠ []
  interfaces : ∀ i ∈ d.interfaces, s.StandsFor i .interface
  fields : ∀ f ∈ d.fields, s.AdmitsField f
  hasMembers : d.kind = .union → d.members ≠ []
  members : ∀ m ∈ d.members, s.StandsFor m .object
  hasInputFields : d.kind = .inputObject → d.inputFields ≠ []
  inputFields : ∀ v ∈ d.inputFields, ∃ kind, s.StandsFor v.type.baseName kind ∧
    (kind = .scalar ∨ kind = .enum ∨ kind = .inputObject)

/-- Whether the roots and all definitions are as they have to be. -/
@[mk_iff]
structure IsValid (s : Schema) : Prop where
  query : s.roots.query ≠ none
  roots : ∀ op name, s.roots.get? op = some name → s.StandsFor name .object
  definitions : ∀ d ∈ s.types.values, s.Admits d

end Schema

/-! ## Requirements -/

/-- What a name is used for. -/
inductive Use where
  | root (op : Operation)
  | interface
  | member
  | output
  | input

namespace Use

/-- The kinds of types that a use allows. -/
def Allows : Use → TypeKind → Prop
  | root _, kind => kind = .object
  | interface, kind => kind = .interface
  | member, kind => kind = .object
  | output, kind => kind ≠ .inputObject
  | input, kind => kind = .scalar ∨ kind = .enum ∨ kind = .inputObject

instance (use : Use) (kind : TypeKind) : Decidable (use.Allows kind) := by
  cases use <;> unfold Allows <;> infer_instance

def wrongKind : Use → String → TypeKind → Fault
  | root op => .rootKind op
  | interface => .implementsKind
  | member => .memberKind
  | output => .outputKind
  | input => .inputKind

def unknown : Use → String → Fault
  | interface => .unknownInterface
  | _ => .unknownType

end Use

/-- What a type must not be without. -/
inductive Content where
  | fields | members | inputFields

def Content.missing : Content → Fault
  | fields => .noFields
  | members => .noMembers
  | inputFields => .noInputFields

/-- A rule at one place of a schema. -/
inductive Requirement where
  /-- There is a query root type. -/
  | query
  /-- A name stands for a type that may be used so. -/
  | reference (place : Coordinate) (use : Use) (name : String)
  /-- A type has no name of introspection. -/
  | publicName (type : String)
  /-- A type is not without content, of which there are so many items. -/
  | nonempty (type : String) (content : Content) (items : Nat)
  /-- A directive is built in for fields or defined. -/
  | directive (place : Coordinate) (name : String)

namespace Requirement

def Met (s : Schema) : Requirement → Prop
  | query => s.roots.query ≠ none
  | reference _ use name => ∃ kind, s.StandsFor name kind ∧ use.Allows kind
  | publicName type => ¬ ['_', '_'] <+: type.toList
  | nonempty _ _ items => items ≠ 0
  | directive _ name => name = "deprecated" ∨ name ∈ s.directiveDefinitions.keys

/-- The problem of a schema that is not as required. -/
def problem (s : Schema) : Requirement → Problem
  | query => ⟨.schema, .noQuery⟩
  | reference place use name =>
    match s.kindOf? name with
    | some kind => ⟨place, use.wrongKind name kind⟩
    | none => ⟨place, use.unknown name⟩
  | publicName type => ⟨.type type, .reservedName⟩
  | nonempty type content _ => ⟨.type type, content.missing⟩
  | directive place name => ⟨place, .unknownDirective name⟩

variable {s : Schema} {place : Coordinate} {name : String}

@[simp] theorem met_query : query.Met s ↔ s.roots.query ≠ none := Iff.rfl

@[simp] theorem met_publicName : (publicName name).Met s ↔ ¬ ['_', '_'] <+: name.toList := Iff.rfl

@[simp] theorem met_nonempty {content : Content} {items : Nat} :
    (nonempty name content items).Met s ↔ items ≠ 0 := Iff.rfl

@[simp] theorem met_directive :
    (directive place name).Met s ↔
      name = "deprecated" ∨ name ∈ s.directiveDefinitions.keys := Iff.rfl

@[simp] theorem met_root {op : Operation} :
    (reference place (.root op) name).Met s ↔ s.StandsFor name .object := by
  simp [Met, Use.Allows]

@[simp] theorem met_interface :
    (reference place .interface name).Met s ↔ s.StandsFor name .interface := by
  simp [Met, Use.Allows]

@[simp] theorem met_member :
    (reference place .member name).Met s ↔ s.StandsFor name .object := by
  simp [Met, Use.Allows]

@[simp] theorem met_output :
    (reference place .output name).Met s ↔
      ∃ kind, s.StandsFor name kind ∧ kind ≠ .inputObject := Iff.rfl

@[simp] theorem met_input :
    (reference place .input name).Met s ↔
      ∃ kind, s.StandsFor name kind ∧
        (kind = .scalar ∨ kind = .enum ∨ kind = .inputObject) := Iff.rfl

theorem met_reference_iff {use : Use} :
    (reference place use name).Met s ↔ ∃ kind, s.kindOf? name = some kind ∧ use.Allows kind := by
  simp only [Met, Schema.kindOf?_eq_some_iff]

instance (s : Schema) (r : Requirement) : Decidable (r.Met s) :=
  match r with
  | query => inferInstanceAs (Decidable (s.roots.query ≠ none))
  | reference _ use name =>
    decidable_of_iff ((s.kindOf? name).any (fun kind => decide (use.Allows kind)) = true) <| by
      rw [met_reference_iff]
      cases s.kindOf? name <;> simp
  | publicName type => inferInstanceAs (Decidable (¬ ['_', '_'] <+: type.toList))
  | nonempty _ _ items => inferInstanceAs (Decidable (items ≠ 0))
  | directive _ name =>
    inferInstanceAs (Decidable (name = "deprecated" ∨ name ∈ s.directiveDefinitions.keys))

end Requirement

namespace Schema

/-! ### The requirements of a schema -/

def rootRequirements (s : Schema) : List Requirement :=
  .query :: s.roots.toList.map fun root => .reference (.root root.1) (.root root.1) root.2

def inputRequirement (place : Coordinate) (v : InputValue) : Requirement :=
  .reference place .input v.type.baseName

def fieldRequirements (type : String) (f : Field) : List Requirement :=
  let place := Coordinate.field type f.name
  .reference place .output f.type.baseName ::
    f.arguments.map (fun a => inputRequirement (.argument type f.name a.name) a) ++
    (if f.semantic ≠ none then [.directive place semanticNonNullName] else []) ++
    f.directives.map fun d => .directive place d.name

def fieldedRequirements (t : FieldedType Field) : List Requirement :=
  .nonempty t.name .fields t.fields.length ::
    t.interfaces.map (.reference (.type t.name) .interface) ++
    t.fields.flatMap (fieldRequirements t.name)

/-- The requirements on a definition, its name aside. -/
def contentRequirements : TypeDefinition Field → List Requirement
  | .object t => fieldedRequirements t
  | .interface t => fieldedRequirements t
  | .union t =>
    .nonempty t.name .members t.members.length ::
      t.members.map (.reference (.type t.name) .member)
  | .inputObject t =>
    .nonempty t.name .inputFields t.fields.length ::
      t.fields.map fun f => inputRequirement (.field t.name f.name) f
  | .scalar _ => []
  | .enum _ => []

def definitionRequirements (d : TypeDefinition Field) : List Requirement :=
  .publicName d.name :: contentRequirements d

/-- All requirements on a schema: those on its roots, then those on each definition. -/
def requirements (s : Schema) : List Requirement :=
  s.rootRequirements ++ s.types.values.flatMap definitionRequirements

def unmet (s : Schema) : List Requirement := s.requirements.filter fun r => ¬ r.Met s

/-! ### Valid schemas are as required -/

variable {s : Schema}

theorem forall_met_root_iff :
    (∀ r ∈ s.rootRequirements, r.Met s) ↔
      s.roots.query ≠ none ∧
        ∀ op name, s.roots.get? op = some name → s.StandsFor name .object := by
  simp only [rootRequirements, List.forall_mem_cons, List.forall_mem_map, Requirement.met_query,
    Requirement.met_root, Prod.forall, Roots.mem_toList]

theorem forall_met_field_iff {type : String} {f : Field} :
    (∀ r ∈ fieldRequirements type f, r.Met s) ↔ s.AdmitsField f := by
  -- levels come from `@semanticNonNull`, which is not built in, so only a definition will do
  have hlevels :
      (∀ r ∈ (if f.semantic ≠ none then
          [Requirement.directive (.field type f.name) semanticNonNullName] else []), r.Met s) ↔
        (f.semantic ≠ none → semanticNonNullName ∈ s.directiveDefinitions.keys) := by
    have hother : semanticNonNullName ≠ "deprecated" := by decide
    by_cases h : f.semantic = none <;> simp [h, hother]
  simp only [fieldRequirements, List.cons_append, List.forall_mem_cons, List.forall_mem_append,
    List.forall_mem_map, hlevels, inputRequirement, Requirement.met_output, Requirement.met_input,
    Requirement.met_directive, and_assoc, admitsField_iff]

theorem forall_met_fielded_iff {t : FieldedType Field} :
    (∀ r ∈ fieldedRequirements t, r.Met s) ↔
      t.fields ≠ [] ∧ (∀ i ∈ t.interfaces, s.StandsFor i .interface) ∧
        ∀ f ∈ t.fields, s.AdmitsField f := by
  simp only [fieldedRequirements, List.cons_append, List.forall_mem_cons, List.forall_mem_append,
    List.forall_mem_map, List.forall_mem_flatMap, Requirement.met_nonempty,
    Requirement.met_interface, ne_eq, List.length_eq_zero_iff, forall_met_field_iff]

theorem forall_met_definition_iff {d : TypeDefinition Field} :
    (∀ r ∈ definitionRequirements d, r.Met s) ↔ s.Admits d := by
  rw [definitionRequirements, List.forall_mem_cons, Requirement.met_publicName, admits_iff]
  refine and_congr Iff.rfl ?_
  -- what a definition of this kind does not have is empty, so nothing is asked of it
  cases d with
  | object t | interface t =>
    simp [contentRequirements, forall_met_fielded_iff, TypeDefinition.kind, TypeDefinition.fields,
      TypeDefinition.interfaces, TypeDefinition.members, TypeDefinition.inputFields]
  | union t =>
    simp [contentRequirements, TypeDefinition.kind, TypeDefinition.fields,
      TypeDefinition.interfaces, TypeDefinition.members, TypeDefinition.inputFields]
  | inputObject t =>
    simp [contentRequirements, inputRequirement, TypeDefinition.kind, TypeDefinition.fields,
      TypeDefinition.interfaces, TypeDefinition.members, TypeDefinition.inputFields]
  | scalar t | enum t =>
    simp [contentRequirements, TypeDefinition.kind, TypeDefinition.fields,
      TypeDefinition.interfaces, TypeDefinition.members, TypeDefinition.inputFields]

theorem forall_met_iff : (∀ r ∈ s.requirements, r.Met s) ↔ s.IsValid := by
  simp only [requirements, List.forall_mem_append, List.forall_mem_flatMap, forall_met_root_iff,
    forall_met_definition_iff, isValid_iff, and_assoc]

/-! ### Check by check -/

/-- The problem of a requirement that is not met. -/
def check (s : Schema) (r : Requirement) : List Problem := if r.Met s then [] else [r.problem s]

theorem flatMap_check (l : List Requirement) :
    l.flatMap s.check = (l.filter fun r => ¬ r.Met s).map (Requirement.problem s) := by
  induction l with
  | nil => rfl
  | cons r rest ih =>
    rw [List.flatMap_cons, ih, check]
    by_cases h : r.Met s <;> simp [h]

theorem referenceProblem_eq_check {place : Coordinate} (use : Use) {name : String}
    {ok : TypeKind → Bool} (hok : ∀ kind, ok kind = true ↔ use.Allows kind) :
    s.referenceProblem place name ok (use.wrongKind name) (use.unknown name) =
      s.check (.reference place use name) := by
  unfold referenceProblem check
  cases hkind : s.kindOf? name with
  | none =>
    have hnot : ¬ (Requirement.reference place use name).Met s := by
      simp [Requirement.met_reference_iff, hkind]
    simp only [hnot, if_false, Requirement.problem, hkind]
  | some kind =>
    have hmet : (Requirement.reference place use name).Met s ↔ ok kind = true := by
      simp [Requirement.met_reference_iff, hkind, hok]
    by_cases h : ok kind = true
    · simp only [hmet, h, if_true]
    · simp only [hmet, h, if_false, Bool.false_eq_true, Requirement.problem, hkind]

theorem isInput_iff {kind : TypeKind} :
    kind.isInput = true ↔ kind = .scalar ∨ kind = .enum ∨ kind = .inputObject := by
  cases kind <;> simp [TypeKind.isInput]

theorem isOutput_iff {kind : TypeKind} : kind.isOutput = true ↔ kind ≠ .inputObject := by
  cases kind <;> simp [TypeKind.isOutput]

theorem inputProblems_eq_check (place : Coordinate) (v : InputValue) :
    s.inputProblems place v = s.check (inputRequirement place v) :=
  referenceProblem_eq_check .input fun _ => isInput_iff

theorem emptyProblem_eq_check {α : Type} (type : String) (content : Content) (l : List α) :
    emptyProblem (.type type) content.missing l = s.check (.nonempty type content l.length) := by
  unfold emptyProblem check
  cases l <;> simp [Requirement.problem]

theorem directiveProblems_eq_check (place : Coordinate) (x : Directive) :
    s.directiveProblems place x = s.check (.directive place x.name) := by
  have hmet : (Requirement.directive place x.name).Met s ↔
      (builtinFieldDirectives.contains x.name || s.definesDirective x.name) = true := by
    simp [builtinFieldDirectives, definesDirective, Registry.contains_iff]
  unfold directiveProblems check
  simp only [hmet, Requirement.problem]

theorem levelsProblems_eq_check (place : Coordinate) (f : Field) :
    s.levelsProblems place f =
      (if f.semantic ≠ none then [Requirement.directive place semanticNonNullName]
        else []).flatMap s.check := by
  have hother : semanticNonNullName ≠ "deprecated" := by decide
  have hmet : (Requirement.directive place semanticNonNullName).Met s ↔
      s.definesDirective semanticNonNullName = true := by
    simp [hother, definesDirective, Registry.contains_iff]
  unfold levelsProblems
  cases f.semantic with
  | none => simp
  | some levels =>
    by_cases h : s.definesDirective semanticNonNullName = true <;>
      simp [check, hmet, h, Requirement.problem]

theorem fieldProblems_eq_check (type : String) (f : Field) :
    s.fieldProblems type f = (fieldRequirements type f).flatMap s.check := by
  have htype : s.referenceProblem (.field type f.name) f.type.baseName TypeKind.isOutput
      (.outputKind f.type.baseName) (.unknownType f.type.baseName) =
        s.check (.reference (.field type f.name) .output f.type.baseName) :=
    referenceProblem_eq_check .output fun _ => isOutput_iff
  simp only [fieldProblems, fieldRequirements, htype, inputProblems_eq_check,
    levelsProblems_eq_check, funext (directiveProblems_eq_check _), List.flatMap_append,
    List.flatMap_cons, List.flatMap_map, List.append_assoc, List.cons_append]

theorem fieldedProblems_eq_check (t : FieldedType Field) :
    s.fieldedProblems t = (fieldedRequirements t).flatMap s.check := by
  have hsome : emptyProblem (.type t.name) .noFields t.fields =
      s.check (.nonempty t.name .fields t.fields.length) := emptyProblem_eq_check _ .fields _
  have hinterface (i : String) :
      s.referenceProblem (.type t.name) i (· == .interface) (.implementsKind i)
        (.unknownInterface i) = s.check (.reference (.type t.name) .interface i) :=
    referenceProblem_eq_check .interface fun _ => beq_iff_eq
  simp only [fieldedProblems, fieldedRequirements, hsome, hinterface,
    funext (fieldProblems_eq_check t.name), List.flatMap_append, List.flatMap_cons,
    List.flatMap_map, List.flatMap_assoc, List.append_assoc, List.cons_append]

theorem contentProblems_eq_check (d : TypeDefinition Field) :
    s.contentProblems d = (contentRequirements d).flatMap s.check := by
  cases d with
  | object t | interface t => exact fieldedProblems_eq_check t
  | union t =>
    have hsome : emptyProblem (.type t.name) .noMembers t.members =
        s.check (.nonempty t.name .members t.members.length) := emptyProblem_eq_check _ .members _
    have hmember (m : String) :
        s.referenceProblem (.type t.name) m (· == .object) (.memberKind m) (.unknownType m) =
          s.check (.reference (.type t.name) .member m) :=
      referenceProblem_eq_check .member fun _ => beq_iff_eq
    simp only [contentProblems, contentRequirements, hsome, hmember, List.flatMap_cons,
      List.flatMap_map]
  | inputObject t =>
    have hsome : emptyProblem (.type t.name) .noInputFields t.fields =
        s.check (.nonempty t.name .inputFields t.fields.length) :=
      emptyProblem_eq_check _ .inputFields _
    simp only [contentProblems, contentRequirements, hsome, inputProblems_eq_check,
      List.flatMap_cons, List.flatMap_map]
  | scalar t | enum t => rfl

theorem definitionProblems_eq_check (d : TypeDefinition Field) :
    s.definitionProblems d = (definitionRequirements d).flatMap s.check := by
  have hmet : (Requirement.publicName d.name).Met s ↔ ¬ isIntrospectionName d.name = true := by
    rw [Requirement.met_publicName, isIntrospectionName, List.isPrefixOf_iff_prefix]
  have hname : (if isIntrospectionName d.name then [⟨.type d.name, .reservedName⟩] else []) =
      s.check (.publicName d.name) := by
    by_cases h : isIntrospectionName d.name = true <;> simp [check, hmet, h, Requirement.problem]
  rw [definitionProblems, hname, contentProblems_eq_check, definitionRequirements,
    List.flatMap_cons]

theorem rootProblems_eq_check : s.rootProblems = s.rootRequirements.flatMap s.check := by
  have hquery : (if s.roots.query.isNone then [⟨.schema, .noQuery⟩] else []) =
      s.check .query := by
    cases h : s.roots.query <;> simp [check, h, Requirement.problem]
  have hroot (op : Operation) (name : String) :
      s.referenceProblem (.root op) name (· == .object) (.rootKind op name) (.unknownType name) =
        s.check (.reference (.root op) (.root op) name) :=
    referenceProblem_eq_check (.root op) fun _ => beq_iff_eq
  simp only [rootProblems, rootRequirements, hquery, hroot, List.flatMap_cons, List.flatMap_map]

/-- **Validation reports what is not as required.** A schema has no problem if it is valid, and
otherwise one for each requirement that it does not meet, those on the roots first and then those on
each definition in the order of registration. -/
theorem problems_eq_unmet (s : Schema) :
    (s.problems = [] ↔ s.IsValid) ∧ s.problems = s.unmet.map (Requirement.problem s) := by
  have hreport : s.problems = s.unmet.map (Requirement.problem s) := by
    rw [unmet, ← flatMap_check, problems, rootProblems_eq_check,
      funext definitionProblems_eq_check, requirements, List.flatMap_append, List.flatMap_assoc]
  refine ⟨?_, hreport⟩
  rw [hreport, ← forall_met_iff, List.map_eq_nil_iff, unmet, List.filter_eq_nil_iff]
  simp

end Schema

end SemanticNullability
