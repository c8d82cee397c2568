import SemanticNullability.Proofs.Parsing
/-!
# Reading definitions and documents

A definition that fits is read again as far as it has a notation (`Definition.HasNotation`): a
directive definition without locations is written without the word for them, which its reader insists
on. Behind a definition comes the next one or the end, so nothing there goes on with it
(`EndsDefinition`).
-/
namespace SemanticNullability

/-- A definition that a document can hold as it is: a directive has a location, and an extension adds
something and describes nothing. -/
def Definition.HasNotation : Definition → Prop
  | .directive d => d.locations ≠ []
  | .extend e => Sdl.addsSomething e = true ∧ Sdl.typeDescription e = none
  | _ => True

end SemanticNullability

namespace SemanticNullability.Sdl

open Piece (tokensOf_cons)

section Lists

variable {α : Type} {rest : List Token}

/-- Nothing that goes on with the definition before it follows, be it a mark or a word. -/
structure EndsDefinition (ts : List Token) : Prop where
  stops : Stops ts
  noWord : ∀ word ∈ ["implements", "repeatable", "on"], ts.head? ≠ some (.name word)

theorem endsDefinition_nil : EndsDefinition [] := ⟨stops_nil, by simp⟩

theorem endsDefinition_described (description : Option String) {word : String}
    (h : word ∉ ["implements", "repeatable", "on"]) (ts : List Token) :
    EndsDefinition (descriptionTokens description ++ .name word :: ts) := by
  refine ⟨stops_described description word ts, fun w hw => ?_⟩
  cases description with
  | none =>
    intro heq
    cases heq
    exact h hw
  | some s => simp [descriptionTokens]

/-! ## Names behind marks -/

theorem tokensOf_marked (m : Mark) (n : String) (names : List String) :
    tokensOf (markedPieces m (n :: names)) =
      .name n :: names.flatMap fun n => [.mark m, .name n] := by
  rw [markedPieces, Piece.separated]
  induction names generalizing n with
  | nil => rfl
  | cons k names ih =>
    have hrest := ih k
    rw [List.map_cons] at hrest
    rw [List.map_cons, List.map_cons, List.intercalate_cons_cons, tokensOf_append, hrest]
    rfl

/-- Names behind marks are read as what they name. -/
theorem marked_run {m : Mark} {p : Phrase Token α} {text : α → String}
    (hp : ∀ a ts, p.run (.name (text a) :: ts) = some (a, ts)) {xs : List α} (hne : xs ≠ [])
    (hrest : rest.head? ≠ some (.mark m)) :
    (markedList m p).run (tokensOf (markedPieces m (xs.map text)) ++ rest) = some (xs, rest) := by
  obtain ⟨x, xs, rfl⟩ := List.exists_cons_of_ne_nil hne
  have hone : ∀ a ∈ xs, Rule.Rereads (· == .mark m) ((expect (.mark m)).andThen fun _ => p.rule)
      (fun a => [.mark m, .name (text a)]) (fun _ => True) a := by
    refine fun a _ => ⟨fun ts _ => ?_, ⟨_, _, rfl, beq_self_eq_true _⟩, fun _ => trivial⟩
    exact (Phrase.run_andThen (expect_run _ _) _).trans (hp a ts)
  have hmany : (behindMarks m p).run (xs.flatMap (fun a => [.mark m, .name (text a)]) ++ rest) = _ :=
    Rule.many_run_flatMap hone trivial fun t ht => beq_eq_false_iff_ne.2 fun heq => hrest (heq ▸ ht)
  have hmark : (accept (.mark m)).run (.name (text x) ::
      (xs.flatMap (fun a => [.mark m, .name (text a)]) ++ rest)) = some (false, _) :=
    accept_run_other (by simp)
  rw [List.map_cons, tokensOf_marked, List.flatMap_map, List.cons_append, markedList,
    Rule.run_bind_some hmark, Rule.run_bind_some (p := p.rule) (hp x _), Rule.run_bind_some hmany]
  rfl

theorem interfaces_run (names : List String) (hmark : rest.head? ≠ some (.mark .ampersand))
    (hword : rest.head? ≠ some (.name "implements")) :
    interfacesRule.run (tokensOf (interfacesPieces names) ++ rest) = some (names, rest) := by
  rw [interfacesRule, interfacesPieces]
  cases names with
  | nil =>
    rw [List.isEmpty_nil, if_pos rfl]
    exact Rule.run_bind_some (accept_run_other hword) _
  | cons n names =>
    have hlist : (markedList .ampersand namePhrase).run
        (tokensOf (markedPieces .ampersand ((n :: names).map id)) ++ rest) = _ :=
      marked_run name_run (List.cons_ne_nil n names) hmark
    rw [List.isEmpty_cons, if_neg Bool.false_ne_true]
    rw [List.map_id] at hlist
    exact (Rule.run_bind_some (accept_run _ _) _).trans hlist

end Lists

/-! ## Members between braces -/

section Bodies

variable {α : Type} {fits : Nat → α → Prop} {member : Nat → Phrase Token α} {depth : Nat}
  {rest : List Token}

theorem body_run (pieces : α → List Piece) {xs : List α} (h : GroupFits fits depth xs)
    (hmember : ∀ inner x, fits inner x →
      Rule.Rereads (· != .mark .closeBrace) (member inner) (fun x => tokensOf (pieces x)) Stops x)
    (hrest : EndsDefinition rest) :
    (optionalGroup .openBrace .closeBrace member depth).run
      (tokensOf (bodyPieces (xs.map pieces)) ++ rest) = some (xs, rest) := by
  rw [tokensOf_body]
  exact optionalGroup_run h hmember rfl (hrest.stops.head?_ne rfl)

/-- The first token of a body, or of what follows it, is the opening brace or the first one there. -/
theorem head?_body_ne (pieces : α → List Piece) (xs : List α) {t : Token} (ht : t ≠ .mark .openBrace)
    (hrest : rest.head? ≠ some t) :
    (tokensOf (bodyPieces (xs.map pieces)) ++ rest).head? ≠ some t := by
  rw [tokensOf_body, groupTokens]
  split_ifs
  · exact hrest
  · simpa using Ne.symm ht

end Bodies

/-! ## Types -/

section Types

variable {depth : Nat} {rest : List Token}

/-- The directives of a definition are read in front of a body. -/
theorem directives_body_run {α : Type} (pieces : α → List Piece) (xs : List α) {ds : List Directive}
    (h : DirectivesFit depth ds) (hrest : EndsDefinition rest) :
    (directivesRule depth).run (tokensOf (directivesPieces 0 ds) ++
      (tokensOf (bodyPieces (xs.map pieces)) ++ rest)) =
        some (ds, tokensOf (bodyPieces (xs.map pieces)) ++ rest) :=
  directives_run 0 h (head?_body_ne pieces xs (by simp) (hrest.stops.head?_ne rfl))
    (head?_body_ne pieces xs (by simp) (hrest.stops.head?_ne rfl))

theorem fielded_run {t : FieldedType WrittenField} (hdirectives : DirectivesFit depth t.directives)
    (hfields : GroupFits WrittenField.Fits depth t.fields) (hrest : EndsDefinition rest)
    (word : String) :
    ∃ ts, tokensOf (fieldedPieces word t) = .name word :: ts ∧
      (fieldedRule depth t.description).run (ts ++ rest) = some (t, rest) := by
  have hbody := body_run (fieldPieces 1) hfields (fun _ _ => rereads_field) hrest
  have hdirs := directives_body_run (fieldPieces 1) t.fields hdirectives hrest
  have hnext : ∀ s : Token, s ≠ .mark .atSign → s ≠ .mark .openBrace → rest.head? ≠ some s →
      (tokensOf (directivesPieces 0 t.directives) ++
        (tokensOf (bodyPieces (t.fields.map (fieldPieces 1))) ++ rest)).head? ≠ some s :=
    fun s hat hbrace hs => head?_directives_ne 0 t.directives hat (head?_body_ne _ t.fields hbrace hs)
  have hinter := interfaces_run t.interfaces
    (hnext _ (by simp) (by simp) (hrest.stops.head?_ne rfl))
    (hnext _ (by simp) (by simp) (hrest.noWord _ (by simp)))
  refine ⟨.name t.name :: (tokensOf (interfacesPieces t.interfaces) ++
    (tokensOf (directivesPieces 0 t.directives) ++
      tokensOf (bodyPieces (t.fields.map (fieldPieces 1))))), ?_, ?_⟩
  · rw [fieldedPieces, List.append_assoc]
    simp only [tokensOf_append, tokensOf_cons, List.append_assoc]
    rfl
  · rw [fieldedRule, List.cons_append, Rule.run_bind_some (name_rule_run t.name _),
      List.append_assoc, List.append_assoc, Rule.run_bind_some hinter, Rule.run_bind_some hdirs,
      Rule.run_bind_some hbody]
    rfl

theorem scalar_run {t : ScalarType} (h : DirectivesFit depth t.directives)
    (hrest : EndsDefinition rest) :
    ∃ ts, tokensOf (scalarPieces t) = .name "scalar" :: ts ∧
      (scalarRule depth t.description).run (ts ++ rest) = some (t, rest) := by
  have hdirs := directives_run 0 h (hrest.stops.head?_ne rfl) (hrest.stops.head?_ne rfl)
  refine ⟨.name t.name :: tokensOf (directivesPieces 0 t.directives), rfl, ?_⟩
  rw [scalarRule, List.cons_append, Rule.run_bind_some (name_rule_run t.name _),
    Rule.run_bind_some hdirs]
  rfl

theorem union_run {t : UnionType} (h : DirectivesFit depth t.directives)
    (hrest : EndsDefinition rest) :
    ∃ ts, tokensOf (unionPieces t) = .name "union" :: ts ∧
      (unionRule depth t.description).run (ts ++ rest) = some (t, rest) := by
  rw [unionPieces]
  cases hmembers : t.members with
  | nil =>
    have hdirs := directives_run 0 h (hrest.stops.head?_ne rfl) (hrest.stops.head?_ne rfl)
    have hequals : (accept (.mark .equals)).run rest = _ :=
      accept_run_other (hrest.stops.head?_ne rfl)
    refine ⟨.name t.name :: tokensOf (directivesPieces 0 t.directives), ?_, ?_⟩
    · rw [List.isEmpty_nil, if_pos rfl, List.append_nil]
      rfl
    · rw [unionRule, List.cons_append, Rule.run_bind_some (name_rule_run t.name _),
        Rule.run_bind_some hdirs, Rule.run_bind_some hequals, if_neg Bool.false_ne_true,
        Rule.run_bind_some (Rule.run_pure [] rest), ← hmembers]
      rfl
  | cons n names =>
    have hdirs : (directivesRule depth).run (tokensOf (directivesPieces 0 t.directives) ++
        .mark .equals :: (tokensOf (markedPieces .pipe ((n :: names).map id)) ++ rest)) = _ :=
      directives_run 0 h (by simp) (by simp)
    have hlist : (markedList .pipe namePhrase).run
        (tokensOf (markedPieces .pipe ((n :: names).map id)) ++ rest) = _ :=
      marked_run name_run (List.cons_ne_nil n names) (hrest.stops.head?_ne rfl)
    rw [List.map_id] at hdirs hlist
    refine ⟨.name t.name :: (tokensOf (directivesPieces 0 t.directives) ++
      .mark .equals :: tokensOf (markedPieces .pipe (n :: names))), ?_, ?_⟩
    · rw [List.isEmpty_cons, if_neg Bool.false_ne_true, List.cons_append, List.cons_append,
        List.cons_append, tokensOf_cons, tokensOf_cons, tokensOf_cons, tokensOf_append]
      rfl
    · rw [unionRule, List.cons_append, Rule.run_bind_some (name_rule_run t.name _),
        List.append_assoc, List.cons_append, Rule.run_bind_some hdirs,
        Rule.run_bind_some (accept_run _ _), if_pos rfl, Rule.run_bind_some hlist, ← hmembers]
      rfl

/-- What is written as a word, a name, directives and a body is read behind the word, by the rule
that puts the parts together. -/
theorem bodied_run {α τ : Type} {fits : Nat → α → Prop} {member : Nat → Phrase Token α}
    {ds : List Directive} {xs : List α} (pieces : α → List Piece) (hds : DirectivesFit depth ds)
    (hxs : GroupFits fits depth xs)
    (hmember : ∀ inner x, fits inner x →
      Rule.Rereads (· != .mark .closeBrace) (member inner) (fun x => tokensOf (pieces x)) Stops x)
    (hrest : EndsDefinition rest) (word name : String)
    (build : String → List Directive → List α → τ) :
    ∃ ts, tokensOf (.name word :: .space :: .name name :: directivesPieces 0 ds ++
        bodyPieces (xs.map pieces)) = .name word :: ts ∧
      Rule.run (do
        let name ← namePhrase.rule
        let directives ← directivesRule depth
        let members ← optionalGroup .openBrace .closeBrace member depth
        return build name directives members) (ts ++ rest) = some (build name ds xs, rest) := by
  have hbody := body_run pieces hxs hmember hrest
  refine ⟨.name name :: (tokensOf (directivesPieces 0 ds) ++ tokensOf (bodyPieces (xs.map pieces))),
    ?_, ?_⟩
  · rw [← tokensOf_append]
    rfl
  · rw [List.cons_append, Rule.run_bind_some (name_rule_run name _), List.append_assoc,
      Rule.run_bind_some (directives_body_run pieces xs hds hrest), Rule.run_bind_some hbody]
    rfl

theorem enum_run {t : EnumType} (h : DirectivesFit depth t.directives)
    (hvalues : GroupFits EnumValue.Fits depth t.values) (hrest : EndsDefinition rest) :
    ∃ ts, tokensOf (enumPieces t) = .name "enum" :: ts ∧
      (enumRule depth t.description).run (ts ++ rest) = some (t, rest) :=
  bodied_run (enumValuePieces 1) h hvalues (fun _ _ => rereads_enumValue) hrest "enum" t.name
    fun name directives values => EnumType.mk name t.description directives values

theorem inputObject_run {t : InputObjectType} (h : DirectivesFit depth t.directives)
    (hfields : GroupFits InputValue.Fits depth t.fields) (hrest : EndsDefinition rest) :
    ∃ ts, tokensOf (inputObjectPieces t) = .name "input" :: ts ∧
      (inputObjectRule depth t.description).run (ts ++ rest) = some (t, rest) :=
  bodied_run (inputFieldPieces 1) h hfields (fun _ _ => rereads_inputField) hrest "input" t.name
    fun name directives fields => InputObjectType.mk name t.description directives fields

def typeWord : TypeDefinition WrittenField → String
  | .object _ => "type"
  | .interface _ => "interface"
  | .union _ => "union"
  | .scalar _ => "scalar"
  | .enum _ => "enum"
  | .inputObject _ => "input"

/-- **A written type is read**: its word chooses the rule for the rest. -/
theorem typeBody_run {d : TypeDefinition WrittenField} (h : d.Fits WrittenField.Fits depth)
    (hrest : EndsDefinition rest) :
    ∃ ts, tokensOf (typeBodyPieces d) = .name (typeWord d) :: ts ∧
      (typeRest depth (typeDescription d) (typeWord d)).run (ts ++ rest) = some (d, rest) := by
  cases d with
  | object t =>
    obtain ⟨ts, htokens, hrun⟩ := fielded_run h.directives h.fields hrest "type"
    exact ⟨ts, htokens, Rule.run_map_some hrun _⟩
  | interface t =>
    obtain ⟨ts, htokens, hrun⟩ := fielded_run h.directives h.fields hrest "interface"
    exact ⟨ts, htokens, Rule.run_map_some hrun _⟩
  | union t =>
    obtain ⟨ts, htokens, hrun⟩ := union_run h.directives hrest
    exact ⟨ts, htokens, Rule.run_map_some hrun _⟩
  | scalar t =>
    obtain ⟨ts, htokens, hrun⟩ := scalar_run h.directives hrest
    exact ⟨ts, htokens, Rule.run_map_some hrun _⟩
  | enum t =>
    obtain ⟨ts, htokens, hrun⟩ := enum_run h.directives h.values hrest
    exact ⟨ts, htokens, Rule.run_map_some hrun _⟩
  | inputObject t =>
    obtain ⟨ts, htokens, hrun⟩ := inputObject_run h.directives h.inputFields hrest
    exact ⟨ts, htokens, Rule.run_map_some hrun _⟩

end Types

/-! ## Schema blocks and directives -/

section Definitions

variable {depth : Nat} {rest : List Token}

theorem root_run (op : Operation) (n : String) (ts : List Token) :
    rootPhrase.run (.name op.text :: .mark .colon :: .name n :: ts) = some ((op, n), ts) := by
  rw [rootPhrase, Phrase.run_andThen (entry_run (name_run n ts) op.text)]
  simp only [Operation.ofText?_text]
  rfl

theorem rootsOfList_toList (roots : Roots) : rootsOfList roots.toList = some roots := by
  obtain ⟨query, mutation, subscription⟩ := roots
  cases query <;> cases mutation <;> cases subscription <;> rfl

def rootTokens (r : Operation × String) : List Token := [.name r.1.text, .mark .colon, .name r.2]

theorem schema_run {block : SchemaBlock} (h : block.Fits depth) :
    ∃ ts, tokensOf (schemaPieces block) = .name "schema" :: ts ∧
      ∀ rest, (schemaRest depth).run (ts ++ rest) = some (block, rest) := by
  have hroots : ∀ roots : List (Operation × String),
      tokensOf (roots.flatMap fun r =>
        [.indent 1, .name r.1.text, .mark .colon, .space, .name r.2, .line]) =
          roots.flatMap rootTokens := by
    intro roots
    induction roots with
    | nil => rfl
    | cons r roots ih =>
      rw [List.flatMap_cons, tokensOf_append, ih, List.flatMap_cons]
      rfl
  have hroot : ∀ r ∈ block.roots.toList,
      Rule.Rereads (· != .mark .closeBrace) rootPhrase rootTokens (fun _ => True) r :=
    fun r _ => ⟨fun ts _ => root_run r.1 r.2 ts, ⟨_, _, rfl, rfl⟩, fun _ => trivial⟩
  refine ⟨tokensOf (directivesPieces 0 block.directives) ++ .mark .openBrace ::
    (block.roots.toList.flatMap rootTokens ++ [.mark .closeBrace]), ?_, fun rest => ?_⟩
  · rw [schemaPieces]
    simp only [tokensOf_append, tokensOf_cons, hroots, List.append_assoc]
    rfl
  · have hmany : (Rule.many (· != .mark .closeBrace) rootPhrase).run
        (block.roots.toList.flatMap rootTokens ++ .mark .closeBrace :: rest) = _ :=
      Rule.many_run_flatMap hroot trivial fun t ht => by cases ht; rfl
    have hdirs : ∀ ts, (directivesRule depth).run (tokensOf (directivesPieces 0 block.directives) ++
        .mark .openBrace :: ts) = some (block.directives, .mark .openBrace :: ts) :=
      fun ts => directives_run 0 h.directives (by simp) (by simp)
    rw [schemaRest, List.append_assoc, List.cons_append, List.append_assoc, List.singleton_append,
      Rule.run_bind_some (hdirs _), Rule.run_bind_some (expect_rule_run _ _),
      Rule.run_bind_some hmany, Rule.run_bind_some (expect_rule_run _ _), rootsOfList_toList]
    rfl

theorem location_run (l : DirectiveLocation) (ts : List Token) :
    locationPhrase.run (.name l.text :: ts) = some (l, ts) := by
  rw [locationPhrase, Phrase.run_andThen (name_run l.text ts)]
  simp only [DirectiveLocation.ofText?_text]
  rfl

theorem locations_run {ls : List DirectiveLocation} (hne : ls ≠ []) (hrest : EndsDefinition rest) :
    locationsRule.run (tokensOf (markedPieces .pipe (ls.map (·.text))) ++ rest) = some (ls, rest) := by
  have hlist := marked_run location_run hne (hrest.stops.head?_ne (t := .mark .pipe) rfl)
  obtain ⟨l, ls, rfl⟩ := List.exists_cons_of_ne_nil hne
  rw [locationsRule, Rule.run_bind_some (Rule.run_peek _)]
  rw [List.map_cons, tokensOf_marked, List.cons_append] at hlist ⊢
  exact hlist

/-- The tokens of a directive definition, behind its word. -/
def directiveTokens (d : DirectiveDefinition) : List Token :=
  .mark .atSign :: .name d.name :: (tokensOf (argumentsPieces 0 d.arguments) ++
    ((if d.repeatable then [.name "repeatable"] else []) ++
      if d.locations.isEmpty then []
      else .name "on" :: tokensOf (markedPieces .pipe (d.locations.map (·.text)))))

theorem tokensOf_directiveDefinition (d : DirectiveDefinition) :
    tokensOf (directiveDefinitionPieces d) = .name "directive" :: directiveTokens d := by
  rw [directiveDefinitionPieces, directiveTokens]
  simp only [tokensOf_append, tokensOf_cons, List.append_assoc]
  cases d.repeatable <;> cases d.locations <;> rfl

/-- A directive definition is read up to the word for its locations. -/
theorem directiveRest_run {d : DirectiveDefinition} (h : d.Fits depth) {ts : List Token}
    (hts : ts.head? ≠ some (.mark .openParen)) (hrepeatable : ts.head? ≠ some (.name "repeatable"))
    (description : Option String) :
    (directiveRest depth description).run (.mark .atSign :: .name d.name ::
      (tokensOf (argumentsPieces 0 d.arguments) ++
        ((if d.repeatable then [.name "repeatable"] else []) ++ ts))) =
      ((expect (.name "on")).rule >>= fun _ => locationsRule >>= fun locations =>
        pure ⟨d.name, description, d.arguments, d.repeatable, locations⟩).run ts := by
  have hword : (accept (.name "repeatable")).run
      ((if d.repeatable then [.name "repeatable"] else []) ++ ts) = some (d.repeatable, ts) := by
    cases d.repeatable with
    | true => exact accept_run _ ts
    | false => exact accept_run_other hrepeatable
  have hargs : (argumentsRule depth).run (tokensOf (argumentsPieces 0 d.arguments) ++
      ((if d.repeatable then [.name "repeatable"] else []) ++ ts)) =
        some (d.arguments, (if d.repeatable then [.name "repeatable"] else []) ++ ts) := by
    refine arguments_run 0 h.arguments ?_
    cases d.repeatable with
    | true => simp
    | false => exact hts
  rw [directiveRest, Rule.run_bind_some (expect_rule_run _ _),
    Rule.run_bind_some (name_rule_run d.name _), Rule.run_bind_some hargs, Rule.run_bind_some hword]

/-- A directive definition with a location is read. -/
theorem directiveDefinition_run {d : DirectiveDefinition} (h : d.Fits depth)
    (hlocations : d.locations ≠ []) (hrest : EndsDefinition rest) :
    (directiveRest depth d.description).run (directiveTokens d ++ rest) = some (d, rest) := by
  have hlist := locations_run hlocations hrest
  have hempty : d.locations.isEmpty = false := by simpa using hlocations
  rw [directiveTokens, hempty, if_neg Bool.false_ne_true, List.cons_append, List.cons_append,
    List.append_assoc, List.append_assoc, List.cons_append,
    directiveRest_run h (by simp) (by simp), Rule.run_bind_some (expect_rule_run _ _),
    Rule.run_bind_some hlist]
  rfl

/-- A directive definition without locations is refused, for want of the word for them. -/
theorem directiveDefinition_run_none {d : DirectiveDefinition} (h : d.Fits depth)
    (hlocations : d.locations = []) (hrest : EndsDefinition rest) (description : Option String) :
    (directiveRest depth description).run (directiveTokens d ++ rest) = none := by
  have hword : (expect (.name "on")).rule.run rest = none := by
    cases rest with
    | nil => rfl
    | cons t ts =>
      have hne : t ≠ .name "on" := fun heq => hrest.noWord "on" (by simp) (by rw [heq]; rfl)
      rw [expect, Phrase.run_rule, Phrase.run_next, if_neg hne]
      rfl
  rw [directiveTokens, hlocations, List.isEmpty_nil, if_pos rfl, List.append_nil, List.cons_append,
    List.cons_append, List.append_assoc,
    directiveRest_run h (hrest.stops.head?_ne rfl) (hrest.noWord _ (by simp)),
    Rule.run_bind_none hword]

/-! ## Definitions -/

theorem described_run {description : Option String} {word : String} (hschema : word ≠ "schema")
    (hextend : word ≠ "extend") (ts : List Token) :
    (definitionPhrase depth).run (descriptionTokens description ++ .name word :: ts) =
      (describedRest depth description word).run ts := by
  cases description with
  | none =>
    show (if word = "schema" then _ else if word = "extend" then _ else _ : Rule Token Definition).run
      ts = _
    rw [if_neg hschema, if_neg hextend]
  | some s => exact Rule.run_bind_some (name_rule_run word ts) _

theorem typeWord_ne (d : TypeDefinition WrittenField) :
    typeWord d ≠ "schema" ∧ typeWord d ≠ "extend" ∧ typeWord d ≠ "directive" ∧
      typeWord d ∉ ["implements", "repeatable", "on"] := by
  cases d <;> simp [typeWord]

theorem tokensOf_type (d : TypeDefinition WrittenField) :
    tokensOf (definitionPieces (.type d)) =
      descriptionTokens (typeDescription d) ++ tokensOf (typeBodyPieces d) := by
  rw [definitionPieces, tokensOf_append, tokensOf_append, tokensOf_lineDescription]
  exact List.append_nil _

theorem tokensOf_directiveDescribed (d : DirectiveDefinition) :
    tokensOf (definitionPieces (.directive d)) =
      descriptionTokens d.description ++ .name "directive" :: directiveTokens d := by
  rw [definitionPieces, tokensOf_append, tokensOf_append, tokensOf_lineDescription,
    tokensOf_directiveDefinition]
  exact List.append_nil _

/-- A definition begins with a word that goes on with nothing before it. -/
theorem endsDefinition_definition (d : Definition) (rest : List Token) :
    EndsDefinition (tokensOf (definitionPieces d) ++ rest) := by
  cases d with
  | schema block => exact endsDefinition_described none (show "schema" ∉ _ by simp) _
  | type d =>
    obtain ⟨ts, hts⟩ : ∃ ts, tokensOf (typeBodyPieces d) = .name (typeWord d) :: ts := by
      cases d <;> exact ⟨_, rfl⟩
    rw [tokensOf_type, hts, List.append_assoc]
    exact endsDefinition_described _ (typeWord_ne d).2.2.2 _
  | directive d =>
    rw [tokensOf_directiveDescribed, List.append_assoc]
    exact endsDefinition_described _ (by simp) _
  | extend e => exact endsDefinition_described none (show "extend" ∉ _ by simp) _

/-- **A written definition is read.** -/
theorem definition_run {d : Definition} (h : d.Fits depth) (hd : d.HasNotation)
    (hrest : EndsDefinition rest) :
    (definitionPhrase depth).run (tokensOf (definitionPieces d) ++ rest) = some (d, rest) := by
  cases d with
  | schema block =>
    obtain ⟨ts, htokens, hrun⟩ := schema_run h
    have hpieces : tokensOf (definitionPieces (.schema block)) = .name "schema" :: ts := by
      rw [definitionPieces, tokensOf_append, htokens]
      exact List.append_nil _
    rw [hpieces]
    exact Rule.run_map_some (hrun rest) _
  | type d =>
    obtain ⟨hschema, hextend, hdirective, -⟩ := typeWord_ne d
    obtain ⟨ts, htokens, hrun⟩ := typeBody_run h hrest
    rw [tokensOf_type, htokens, List.append_assoc, List.cons_append,
      described_run hschema hextend, describedRest, if_neg hdirective]
    exact Rule.run_map_some hrun _
  | directive d =>
    rw [tokensOf_directiveDescribed, List.append_assoc, List.cons_append,
      described_run (by simp) (by simp), describedRest, if_pos rfl]
    exact Rule.run_map_some (directiveDefinition_run h hd hrest) _
  | extend e =>
    obtain ⟨hadds, hdescription⟩ := hd
    obtain ⟨ts, htokens, hrun⟩ := typeBody_run h hrest
    rw [hdescription] at hrun
    have hpieces : tokensOf (definitionPieces (.extend e)) =
        .name "extend" :: .name (typeWord e) :: ts := by
      rw [definitionPieces, tokensOf_append, ← htokens]
      exact List.append_nil _
    have hextension : (extensionRest depth).run (.name (typeWord e) :: (ts ++ rest)) =
        some (e, rest) := by
      rw [extensionRest, Rule.run_bind_some (name_rule_run _ _), Rule.run_bind_some hrun, if_pos hadds]
      rfl
    rw [hpieces]
    exact Rule.run_map_some hextension _

/-- A definition without a notation, other than an extension, is refused. -/
theorem definition_run_none {d : DirectiveDefinition} (h : d.Fits depth) (hd : d.locations = [])
    (hrest : EndsDefinition rest) :
    (definitionPhrase depth).run (tokensOf (definitionPieces (.directive d)) ++ rest) = none := by
  rw [tokensOf_directiveDescribed, List.append_assoc, List.cons_append,
    described_run (by simp) (by simp), describedRest, if_pos rfl]
  exact Rule.run_bind_none (directiveDefinition_run_none h hd hrest d.description) _

end Definitions

/-! ## Documents -/

section Documents

theorem tokensOf_document (document : Document) :
    tokensOf (documentPieces document) = document.flatMap fun d => tokensOf (definitionPieces d) := by
  rw [documentPieces, tokensOf_separated rfl, List.flatMap_map]

theorem exists_tokensOf_definition (d : Definition) :
    ∃ t ts, tokensOf (definitionPieces d) = t :: ts := by
  have hdescribed : ∀ (description : Option String) (word : String) (us : List Token),
      ∃ t ts, descriptionTokens description ++ .name word :: us = t :: ts := by
    intro description word us
    cases description <;> exact ⟨_, _, rfl⟩
  cases d with
  | schema block => exact ⟨_, _, rfl⟩
  | type d =>
    obtain ⟨us, hus⟩ : ∃ us, tokensOf (typeBodyPieces d) = .name (typeWord d) :: us := by
      cases d <;> exact ⟨_, rfl⟩
    rw [tokensOf_type, hus]
    exact hdescribed _ _ us
  | directive d =>
    rw [tokensOf_directiveDescribed]
    exact hdescribed _ _ _
  | extend e => exact ⟨_, _, rfl⟩

theorem rereads_definition {d : Definition} (h : d.Fits maxDepth) (hd : d.HasNotation) :
    Rule.Rereads (fun _ => true) (definitionPhrase maxDepth)
      (fun d => tokensOf (definitionPieces d)) EndsDefinition d where
  run _ hrest := definition_run h hd hrest
  starts := by
    obtain ⟨t, ts, htokens⟩ := exists_tokensOf_definition d
    exact ⟨t, ts, htokens, rfl⟩
  follows rest := endsDefinition_definition d rest

theorem endsDefinition_document (document : Document) :
    EndsDefinition (document.flatMap fun d => tokensOf (definitionPieces d)) := by
  cases document with
  | nil => exact endsDefinition_nil
  | cons d document =>
    rw [List.flatMap_cons]
    exact endsDefinition_definition d _

/-- **A written document is read.** -/
theorem document_run {document : Document} (hne : document ≠ [])
    (h : ∀ d ∈ document, d.Fits maxDepth ∧ d.HasNotation) :
    documentOfTokens? (tokensOf (documentPieces document)) = some document := by
  have hrun := Rule.manyOne_run_flatMap hne (fun d hd => rereads_definition (h d hd).1 (h d hd).2)
    endsDefinition_nil (fun t ht => by cases ht)
  rw [List.append_nil] at hrun
  rw [documentOfTokens?, tokensOf_document, documentRule, hrun]
  rfl

/-- A document with a directive definition without locations is refused. -/
theorem document_run_none {document : Document}
    (h : ∀ d ∈ document, d.Fits maxDepth ∧ d.extension? = none)
    (hnot : ∃ d ∈ document, ¬d.HasNotation) :
    documentOfTokens? (tokensOf (documentPieces document)) = none := by
  have hmany : (Rule.many (fun _ => true) (definitionPhrase maxDepth)).run
      (document.flatMap fun d => tokensOf (definitionPieces d)) = none := by
    induction document with
    | nil => exact absurd hnot (by simp)
    | cons d document ih =>
      obtain ⟨hfits, hextension⟩ := h d List.mem_cons_self
      have hends := endsDefinition_document document
      rw [List.flatMap_cons]
      by_cases hd : d.HasNotation
      · have hrest : ∃ x ∈ document, ¬x.HasNotation := by
          obtain ⟨x, hx, hx'⟩ := hnot
          rcases List.mem_cons.1 hx with rfl | hx
          · exact absurd hd hx'
          · exact ⟨x, hx, hx'⟩
        rw [Rule.many_run_cons (rereads_definition hfits hd) hends,
          ih (fun x hx => h x (List.mem_cons_of_mem d hx)) hrest]
        rfl
      · have hnone : (definitionPhrase maxDepth).run (tokensOf (definitionPieces d) ++
            document.flatMap fun d => tokensOf (definitionPieces d)) = none := by
          cases d with
          | directive d => exact definition_run_none hfits (not_not.1 hd) hends
          | schema block => exact absurd trivial hd
          | type d => exact absurd trivial hd
          | extend e => cases hextension
        obtain ⟨t, ts, htokens⟩ := exists_tokensOf_definition d
        rw [htokens] at hnone ⊢
        exact Rule.many_run_none rfl hnone
  obtain ⟨d, hd, -⟩ := hnot
  obtain ⟨x, document, rfl⟩ := List.exists_cons_of_ne_nil (List.ne_nil_of_mem hd)
  obtain ⟨t, ts, htokens⟩ := exists_tokensOf_definition x
  rw [List.flatMap_cons, htokens, List.cons_append] at hmany
  rw [documentOfTokens?, tokensOf_document, documentRule, List.flatMap_cons, htokens,
    List.cons_append, Rule.manyOne_run_eq rfl, hmany]
  rfl

end Documents

end SemanticNullability.Sdl
