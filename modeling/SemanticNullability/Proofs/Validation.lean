import SemanticNullability.Validation
import SemanticNullability.Proofs.Conversion
import SemanticNullability.Proofs.Loaded
/-!
# Conversion and validation

Validation looks at names, at the kinds of definitions and at directives. Conversion keeps the first
two, so each check finds in a converted schema what it finds in the source, with one exception: the
levels of a field are used up, and with them goes the problem that `@semanticNonNull` has no
definition. `problems_convert` says this of the whole list of problems, and what it means for a
schema without problems.
-/
namespace SemanticNullability

/-! ## The one fault that goes -/

/-- Texts that begin differently are different. -/
theorem ne_of_take_ne {text start other : String} {rest : List Char} (n : Nat)
    (htext : text.toList = start.toList ++ rest) (hn : n ≤ start.toList.length)
    (hne : start.toList.take n ≠ other.toList.take n) : text ≠ other := by
  rintro rfl
  rw [htext, List.take_append_of_le_length hn] at hne
  exact hne rfl

theorem toList_append_four (a b c d : String) :
    (a ++ b ++ c ++ d).toList = a.toList ++ (b ++ c ++ d).toList := by
  simp only [String.toList_append, List.append_assoc]

theorem Fault.message_eq_unknownSemantic_iff {fault : Fault} :
    fault.message = "unknown directive @semanticNonNull" ↔
      fault = .unknownDirective semanticNonNullName := by
  constructor
  · intro h
    have hlist := congrArg String.toList h
    cases fault with
    | unknownDirective name =>
      have happend : "unknown directive @".toList ++ name.toList =
          "unknown directive @".toList ++ semanticNonNullName.toList := by
        rw [← String.toList_append, ← String.toList_append]
        exact hlist
      rw [String.toList_inj.1 (List.append_cancel_left happend)]
    | noQuery | reservedName | noFields | noMembers | noInputFields => exact absurd h (by decide)
    | unknownType name | unknownInterface name =>
      exact absurd h (ne_of_take_ne 9 (String.toList_append ..) (by decide) (by decide))
    | rootKind op name kind =>
      refine absurd h (ne_of_take_ne 1 (toList_append_four ..) ?_ ?_) <;> cases op <;> decide
    | implementsKind name kind | outputKind name kind | inputKind name kind
    | memberKind name kind =>
      exact absurd h (ne_of_take_ne 3 (toList_append_four ..) (by decide) (by decide))
  · rintro rfl
    rfl

/-- The problem of levels without a definition of `@semanticNonNull`. -/
def Problem.isUnknownSemantic (p : Problem) : Bool :=
  decide (p.fault.message = "unknown directive @semanticNonNull")

theorem Problem.isUnknownSemantic_eq_false {p : Problem}
    (h : p.fault ≠ .unknownDirective semanticNonNullName) : p.isUnknownSemantic = false :=
  decide_eq_false fun heq => h (Fault.message_eq_unknownSemantic_iff.1 heq)

/-- The problems that conversion leaves. -/
def remaining (problems : List Problem) : List Problem :=
  problems.filter fun p => !p.isUnknownSemantic

theorem remaining_append (l m : List Problem) : remaining (l ++ m) = remaining l ++ remaining m :=
  List.filter_append ..

theorem remaining_flatMap {α : Type} (l : List α) (f : α → List Problem) :
    remaining (l.flatMap f) = l.flatMap fun a => remaining (f a) :=
  List.filter_flatMap ..

theorem remaining_eq_self {l : List Problem}
    (h : ∀ p ∈ l, p.fault ≠ .unknownDirective semanticNonNullName) : remaining l = l := by
  refine List.filter_eq_self.2 fun p hp => ?_
  rw [Problem.isUnknownSemantic_eq_false (h p hp), Bool.not_false]

namespace Schema

variable {s : Schema} {mode : Mode}

/-- No type is registered under a name of introspection. -/
def HasPublicKeys (s : Schema) : Prop := ∀ key ∈ s.types.keys, isIntrospectionName key = false

/-! ## What the checks look at -/

theorem types_convert_of_public (h : s.HasPublicKeys) :
    (s.convert mode).types = s.types.map (TypeDefinition.convert mode) := by
  have hkept : (s.types.filterKeys fun key => !isIntrospectionName key) = s.types := by
    refine Registry.filterKeys_eq_self fun key hkey => ?_
    rw [h key hkey, Bool.not_false]
  rw [types_convert, hkept]

theorem kindOf?_convert (h : s.HasPublicKeys) (name : String) :
    (s.convert mode).kindOf? name = s.kindOf? name := by
  rw [kindOf?, kindOf?, type?, type?, types_convert_of_public h, Registry.find?_map]
  cases s.types.find? name with
  | none => rfl
  | some d => exact congrArg some (TypeDefinition.kind_mapFields _ d)

theorem definesDirective_convert {name : String} (h : name ≠ semanticNonNullName) :
    (s.convert mode).definesDirective name = s.definesDirective name := by
  have hdirs : (s.convert mode).directiveDefinitions =
      s.directiveDefinitions.erase semanticNonNullName := rfl
  rw [definesDirective, definesDirective, hdirs, Registry.contains_erase]
  simp [h]

/-! ## Check by check -/

theorem referenceProblem_convert (h : s.HasPublicKeys) {place : Coordinate} {name : String}
    {ok : TypeKind → Bool} {wrongKind : TypeKind → Fault} {unknown : Fault}
    (hwrong : ∀ kind, wrongKind kind ≠ .unknownDirective semanticNonNullName)
    (hunknown : unknown ≠ .unknownDirective semanticNonNullName) :
    (s.convert mode).referenceProblem place name ok wrongKind unknown =
      remaining (s.referenceProblem place name ok wrongKind unknown) := by
  rw [remaining_eq_self, referenceProblem, referenceProblem, kindOf?_convert h]
  intro p hp
  rw [referenceProblem] at hp
  split at hp
  · split at hp
    · cases hp
    · rw [List.mem_singleton.1 hp]
      exact hwrong _
  · rw [List.mem_singleton.1 hp]
    exact hunknown

theorem remaining_emptyProblem {α : Type} {place : Coordinate} {fault : Fault} (l : List α)
    (h : fault ≠ .unknownDirective semanticNonNullName) :
    remaining (emptyProblem place fault l) = emptyProblem place fault l := by
  refine remaining_eq_self fun p hp => ?_
  rw [emptyProblem] at hp
  split at hp
  · rw [List.mem_singleton.1 hp]
    exact h
  · cases hp

theorem rootProblems_convert (h : s.HasPublicKeys) :
    (s.convert mode).rootProblems = remaining s.rootProblems := by
  have hroots : (s.convert mode).roots = s.roots := rfl
  have hquery : remaining (if s.roots.query.isNone then [⟨.schema, .noQuery⟩] else []) =
      if s.roots.query.isNone then [⟨.schema, .noQuery⟩] else [] := by
    refine remaining_eq_self fun p hp => ?_
    split at hp
    · rw [List.mem_singleton.1 hp]
      exact Fault.noConfusion
    · cases hp
  rw [rootProblems, rootProblems, remaining_append, remaining_flatMap, hroots, hquery]
  congr 1
  refine List.flatMap_congr fun root _ => ?_
  exact referenceProblem_convert h (fun _ => Fault.noConfusion) Fault.noConfusion

theorem inputProblems_convert (h : s.HasPublicKeys) (place : Coordinate) (v : InputValue) :
    (s.convert mode).inputProblems place v = remaining (s.inputProblems place v) :=
  referenceProblem_convert h (fun _ => Fault.noConfusion) Fault.noConfusion

/-- The levels are used up, and their problem is the one that goes. -/
theorem levelsProblems_convert (place : Coordinate) (f : Field) :
    (s.convert mode).levelsProblems place (f.convert mode) =
      remaining (s.levelsProblems place f) := by
  have hnone : (f.convert mode).semantic = none := f.semantic_applyLevels
  have hgone : remaining (s.levelsProblems place f) = [] := by
    refine List.filter_eq_nil_iff.2 fun p hp => ?_
    rw [levelsProblems] at hp
    split at hp
    · rw [List.mem_singleton.1 hp]
      simp [Problem.isUnknownSemantic, Fault.message_eq_unknownSemantic_iff]
    · cases hp
  rw [hgone, levelsProblems, hnone]
  rfl

theorem directiveProblems_convert (place : Coordinate) {d : Directive}
    (h : d.isSemantic = false) :
    (s.convert mode).directiveProblems place d = remaining (s.directiveProblems place d) := by
  have hname : d.name ≠ semanticNonNullName := by simpa [Directive.isSemantic] using h
  rw [remaining_eq_self, directiveProblems, directiveProblems, definesDirective_convert hname]
  intro p hp
  rw [directiveProblems] at hp
  split at hp
  · cases hp
  · rw [List.mem_singleton.1 hp]
    exact fun heq => hname (Fault.unknownDirective.inj heq)

theorem fieldProblems_convert (h : s.HasPublicKeys) (type : String) {f : Field}
    (hf : f.IsLifted) :
    (s.convert mode).fieldProblems type (f.convert mode) = remaining (s.fieldProblems type f) := by
  have hname : (f.convert mode).name = f.name := by rw [Field.convert_eq_plain]; rfl
  have harguments : (f.convert mode).arguments = f.arguments := by
    rw [Field.convert_eq_plain]
    rfl
  have hdirectives : (f.convert mode).directives = f.directives := by
    rw [Field.convert_eq_plain]
    rfl
  simp only [fieldProblems, remaining_append, remaining_flatMap, hname, harguments, hdirectives,
    Field.baseName_convert, levelsProblems_convert]
  congr 1
  · congr 1
    congr 1
    · exact referenceProblem_convert h (fun _ => Fault.noConfusion) Fault.noConfusion
    · exact List.flatMap_congr fun a _ => inputProblems_convert h _ a
  · exact List.flatMap_congr fun d hd => directiveProblems_convert _ (hf d hd)

theorem fieldedProblems_convert (h : s.HasPublicKeys) {t : FieldedType Field}
    (hf : ∀ f ∈ t.fields, f.IsLifted) :
    (s.convert mode).fieldedProblems (t.mapFields (Field.convert mode)) =
      remaining (s.fieldedProblems t) := by
  simp only [fieldedProblems, FieldedType.mapFields, remaining_append, remaining_flatMap,
    List.flatMap_map]
  congr 1
  · congr 1
    · rw [remaining_emptyProblem _ Fault.noConfusion]
      cases t.fields <;> rfl
    · refine List.flatMap_congr fun i _ => ?_
      exact referenceProblem_convert h (fun _ => Fault.noConfusion) Fault.noConfusion
  · exact List.flatMap_congr fun f hmem => fieldProblems_convert h _ (hf f hmem)

theorem contentProblems_convert (h : s.HasPublicKeys) {d : TypeDefinition Field}
    (hf : ∀ f ∈ d.fields, f.IsLifted) :
    (s.convert mode).contentProblems (d.convert mode) = remaining (s.contentProblems d) := by
  cases d with
  | object t => exact fieldedProblems_convert h hf
  | interface t => exact fieldedProblems_convert h hf
  | union t =>
    simp only [TypeDefinition.convert, TypeDefinition.mapFields, contentProblems,
      remaining_append, remaining_flatMap]
    congr 1
    · rw [remaining_emptyProblem _ Fault.noConfusion]
    · refine List.flatMap_congr fun m _ => ?_
      exact referenceProblem_convert h (fun _ => Fault.noConfusion) Fault.noConfusion
  | inputObject t =>
    simp only [TypeDefinition.convert, TypeDefinition.mapFields, contentProblems,
      remaining_append, remaining_flatMap]
    congr 1
    · rw [remaining_emptyProblem _ Fault.noConfusion]
    · exact List.flatMap_congr fun f _ => inputProblems_convert h _ f
  | scalar t => rfl
  | enum t => rfl

theorem definitionProblems_convert (h : s.HasPublicKeys) {d : TypeDefinition Field}
    (hf : ∀ f ∈ d.fields, f.IsLifted) :
    (s.convert mode).definitionProblems (d.convert mode) =
      remaining (s.definitionProblems d) := by
  have hreserved : remaining
      (if isIntrospectionName d.name then [⟨.type d.name, .reservedName⟩] else []) =
        if isIntrospectionName d.name then [⟨.type d.name, .reservedName⟩] else [] := by
    refine remaining_eq_self fun p hp => ?_
    split at hp
    · rw [List.mem_singleton.1 hp]
      exact Fault.noConfusion
    · cases hp
  have hname : (d.convert mode).name = d.name := TypeDefinition.name_mapFields _ d
  rw [definitionProblems, definitionProblems, remaining_append, hname, hreserved,
    contentProblems_convert h hf]

/-- **Conversion and validation.** The problems of a converted schema are those of its source, but
for the undefined `@semanticNonNull`. -/
theorem problems_convert_eq_remaining (h : s.HasPublicKeys) (hf : s.IsLifted) :
    (s.convert mode).problems = remaining s.problems := by
  rw [problems, problems, remaining_append, remaining_flatMap, rootProblems_convert h]
  congr 1
  rw [types_convert_of_public h, Registry.values, Registry.map, Registry.values, List.map_map,
    List.flatMap_map, List.flatMap_map]
  exact List.flatMap_congr fun e he => definitionProblems_convert h (hf e he)

/-! ## Schemas without problems -/

/-- Every name that a schema uses for a type stands for a type of the right kind. -/
structure Resolves (s : Schema) : Prop where
  roots : ∀ op name, s.roots.get? op = some name → s.kindOf? name = some .object
  fields : ∀ e ∈ s.types.entries, ∀ f ∈ e.2.fields,
    ∃ kind, s.kindOf? f.type.baseName = some kind ∧ kind.isOutput = true
  interfaces : ∀ e ∈ s.types.entries, ∀ i ∈ e.2.interfaces, s.kindOf? i = some .interface
  members : ∀ e ∈ s.types.entries, ∀ m ∈ e.2.members, s.kindOf? m = some .object

theorem referenceProblem_eq_nil_iff {place : Coordinate} {name : String} {ok : TypeKind → Bool}
    {wrongKind : TypeKind → Fault} {unknown : Fault} :
    s.referenceProblem place name ok wrongKind unknown = [] ↔
      ∃ kind, s.kindOf? name = some kind ∧ ok kind = true := by
  rw [referenceProblem]
  cases s.kindOf? name with
  | none => simp
  | some kind => cases hok : ok kind <;> simp [hok]

/-- A reference to a certain kind has no problem if it leads to that kind. -/
theorem kindOf?_of_referenceProblem {place : Coordinate} {name : String} {kind : TypeKind}
    {wrongKind : TypeKind → Fault} {unknown : Fault}
    (h : s.referenceProblem place name (· == kind) wrongKind unknown = []) :
    s.kindOf? name = some kind := by
  obtain ⟨found, hfound, hkind⟩ := referenceProblem_eq_nil_iff.1 h
  rw [hfound, beq_iff_eq.1 hkind]

theorem definitionProblems_of_valid (h : s.problems = []) {e : String × TypeDefinition Field}
    (he : e ∈ s.types.entries) : s.definitionProblems e.2 = [] := by
  rw [problems, List.append_eq_nil_iff] at h
  exact List.flatMap_eq_nil_iff.1 h.2 e.2 (List.mem_map_of_mem he)

theorem contentProblems_of_valid (h : s.problems = []) {e : String × TypeDefinition Field}
    (he : e ∈ s.types.entries) : s.contentProblems e.2 = [] := by
  have hdef := definitionProblems_of_valid h he
  rw [definitionProblems, List.append_eq_nil_iff] at hdef
  exact hdef.2

theorem isIntrospectionName_of_valid (h : s.problems = []) {e : String × TypeDefinition Field}
    (he : e ∈ s.types.entries) : isIntrospectionName e.2.name = false := by
  have hdef := definitionProblems_of_valid h he
  rw [definitionProblems, List.append_eq_nil_iff] at hdef
  cases hname : isIntrospectionName e.2.name with
  | false => rfl
  | true =>
    rw [hname] at hdef
    cases hdef.1

/-- The parts of an object or interface without problems. -/
theorem fieldedProblems_eq_nil {t : FieldedType Field} (h : s.fieldedProblems t = []) :
    (∀ i ∈ t.interfaces, s.kindOf? i = some .interface) ∧
      ∀ f ∈ t.fields, ∃ kind, s.kindOf? f.type.baseName = some kind ∧ kind.isOutput = true := by
  rw [fieldedProblems, List.append_eq_nil_iff, List.append_eq_nil_iff] at h
  obtain ⟨⟨_, hinterfaces⟩, hfields⟩ := h
  refine ⟨fun i hi => ?_, fun f hf => ?_⟩
  · exact kindOf?_of_referenceProblem (List.flatMap_eq_nil_iff.1 hinterfaces i hi)
  · have hfield := List.flatMap_eq_nil_iff.1 hfields f hf
    simp only [fieldProblems, List.append_eq_nil_iff] at hfield
    exact referenceProblem_eq_nil_iff.1 hfield.1.1.1

theorem resolves_of_valid (h : s.problems = []) : s.Resolves where
  roots op name hroot := by
    rw [problems, rootProblems, List.append_eq_nil_iff, List.append_eq_nil_iff] at h
    exact kindOf?_of_referenceProblem
      (List.flatMap_eq_nil_iff.1 h.1.2 (op, name) (Roots.mem_toList.2 hroot))
  fields e he f hf := by
    have hcontent := contentProblems_of_valid h he
    cases hd : e.2 with
    | object t | interface t =>
      rw [hd] at hcontent hf
      exact (fieldedProblems_eq_nil hcontent).2 f hf
    | union t | scalar t | enum t | inputObject t =>
      rw [hd] at hf
      cases hf
  interfaces e he i hi := by
    have hcontent := contentProblems_of_valid h he
    cases hd : e.2 with
    | object t | interface t =>
      rw [hd] at hcontent hi
      exact (fieldedProblems_eq_nil hcontent).1 i hi
    | union t | scalar t | enum t | inputObject t =>
      rw [hd] at hi
      cases hi
  members e he m hm := by
    have hcontent := contentProblems_of_valid h he
    cases hd : e.2 with
    | union t =>
      rw [hd] at hcontent hm
      rw [contentProblems, List.append_eq_nil_iff] at hcontent
      exact kindOf?_of_referenceProblem (List.flatMap_eq_nil_iff.1 hcontent.2 m hm)
    | object t | interface t | scalar t | enum t | inputObject t =>
      rw [hd] at hm
      cases hm

/-- A loaded schema without problems has no type under a name of introspection. -/
theorem hasPublicKeys_of_valid (hnamed : s.IsNamed) (h : s.problems = []) : s.HasPublicKeys := by
  intro key hkey
  obtain ⟨e, he, rfl⟩ := List.mem_map.1 hkey
  rw [hnamed.types e he]
  exact isIntrospectionName_of_valid h he

/-- **Conversion neither makes nor hides a problem.** Without types of introspection and with
`@semanticNonNull` lifted off the fields, which holds of every schema that has been loaded and has no
problems, a converted schema has the problems of its source in their order, without those that name
`@semanticNonNull` as an unknown directive. In particular a schema without problems is converted to
one without problems, in which everything that is named still resolves. -/
theorem problems_convert (mode : Mode) (s : Schema) :
    (s.HasPublicKeys → s.IsLifted →
      (s.convert mode).problems = s.problems.filter (fun p =>
        p.fault.message ≠ "unknown directive @semanticNonNull") ∧
      (s.problems = [] → (s.convert mode).problems = [] ∧ (s.convert mode).Resolves)) ∧
    ∀ text, ofText text = .ok s → s.problems = [] → s.HasPublicKeys ∧ s.IsLifted := by
  constructor
  · intro hkeys hlift
    have hremaining : (s.convert mode).problems = remaining s.problems :=
      problems_convert_eq_remaining hkeys hlift
    refine ⟨?_, fun hvalid => ?_⟩
    · rw [hremaining]
      refine List.filter_congr fun p _ => ?_
      simp [Problem.isUnknownSemantic]
    · have hnone : (s.convert mode).problems = [] := by
        rw [hremaining, hvalid]
        rfl
      exact ⟨hnone, resolves_of_valid hnone⟩
  · intro text htext hvalid
    obtain ⟨document, _, hdoc⟩ := ofText_eq_ok_iff.1 htext
    exact ⟨hasPublicKeys_of_valid (isNamed_ofDocument hdoc) hvalid, isLifted_ofDocument hdoc⟩

/-- A schema with two problems: levels without a definition of `@semanticNonNull`, and a field of an
unknown type. -/
def undefinedSemantic : Schema where
  roots := ⟨some "Query", none, none⟩
  directives := []
  types :=
    ⟨[("Query", .object ⟨"Query", none, [], [],
        [{ Field.ofType "id" (.named "ID") with semantic := some Levels.outer },
          Field.ofType "lost" (.list (.named "Missing"))]⟩)],
      by decide⟩
  directiveDefinitions := ∅

theorem problems_convert_undefinedSemantic :
    undefinedSemantic.HasPublicKeys ∧ undefinedSemantic.IsLifted ∧
    undefinedSemantic.problems =
      [⟨.field "Query" "id", .unknownDirective "semanticNonNull"⟩,
        ⟨.field "Query" "lost", .unknownType "Missing"⟩] ∧
    (undefinedSemantic.convert .strict).problems =
      [⟨.field "Query" "lost", .unknownType "Missing"⟩] := by
  have hkeys : undefinedSemantic.HasPublicKeys := by
    unfold HasPublicKeys
    decide
  have hlift : undefinedSemantic.IsLifted := by
    unfold IsLifted Field.IsLifted
    decide
  have hproblems : undefinedSemantic.problems =
      [⟨.field "Query" "id", .unknownDirective "semanticNonNull"⟩,
        ⟨.field "Query" "lost", .unknownType "Missing"⟩] := rfl
  refine ⟨hkeys, hlift, hproblems, ?_⟩
  rw [((problems_convert .strict undefinedSemantic).1 hkeys hlift).1, hproblems]
  decide +kernel

end Schema

end SemanticNullability
