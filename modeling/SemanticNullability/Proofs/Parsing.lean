import Mathlib.Data.String.Basic
import SemanticNullability.Proofs.Grammar
import SemanticNullability.Proofs.WrittenPieces
/-!
# Reading the parts of definitions

The tokens of a written value, type, directive or input value are read as what was written, in front
of tokens that do not go on with it (`Stops`). The lemmas follow the rules of the grammar.
-/
namespace SemanticNullability.Sdl

open Piece (tokensOf_cons)

/-! ## Tokens of rows of pieces -/

section Rows

variable {α : Type}

theorem tokensOf_append (ps qs : List Piece) : tokensOf (ps ++ qs) = tokensOf ps ++ tokensOf qs :=
  List.filterMap_append

/-- A separator of gaps leaves no tokens. -/
theorem tokensOf_separated {separator : List Piece} (h : tokensOf separator = [])
    (members : List (List Piece)) :
    tokensOf (Piece.separated separator members) = members.flatMap tokensOf := by
  rw [Piece.separated]
  induction members with
  | nil => rfl
  | cons m members ih =>
    cases members with
    | nil =>
      rw [List.intercalate_singleton, List.flatMap_cons, List.flatMap_nil, List.append_nil]
    | cons n members =>
      rw [List.intercalate_cons_cons, tokensOf_append, tokensOf_append, h, List.append_nil, ih,
        List.flatMap_cons (x := m)]

/-- The tokens of members between two marks; there are none without members. -/
def groupTokens (opening closing : Mark) (written : α → List Token) (xs : List α) : List Token :=
  if xs.isEmpty then [] else .mark opening :: (xs.flatMap written ++ [.mark closing])

theorem tokensOf_grouped (opening closing : Mark) (pieces : α → List Piece) (xs : List α) :
    tokensOf (Piece.grouped opening closing (xs.map pieces)) =
      groupTokens opening closing (fun x => tokensOf (pieces x)) xs := by
  rw [Piece.grouped, groupTokens]
  cases xs with
  | nil => rfl
  | cons x xs =>
    rw [List.map_cons, List.isEmpty_cons, List.isEmpty_cons, if_neg Bool.false_ne_true,
      if_neg Bool.false_ne_true, tokensOf_append, tokensOf_cons, tokensOf_separated rfl,
      ← List.map_cons, List.flatMap_map]
    rfl

theorem tokensOf_body (pieces : α → List Piece) (xs : List α) :
    tokensOf (bodyPieces (xs.map pieces)) =
      groupTokens .openBrace .closeBrace (fun x => tokensOf (pieces x)) xs := by
  rw [bodyPieces, groupTokens]
  cases xs with
  | nil => rfl
  | cons x xs =>
    rw [List.map_cons, List.isEmpty_cons, List.isEmpty_cons, if_neg Bool.false_ne_true,
      if_neg Bool.false_ne_true, tokensOf_append, tokensOf_cons, tokensOf_cons, tokensOf_cons,
      ← List.map_cons]
    have hflatten : ∀ members : List (List Piece),
        tokensOf members.flatten = members.flatMap tokensOf := by
      intro members
      induction members with
      | nil => rfl
      | cons m members ih => rw [List.flatten_cons, tokensOf_append, ih, List.flatMap_cons]
    rw [hflatten, List.flatMap_map]
    rfl

def descriptionTokens (description : Option String) : List Token := description.toList.map .text

theorem tokensOf_inlineDescription (level : Nat) (description : Option String) :
    tokensOf (inlineDescription level description) = descriptionTokens description := by
  cases description <;> rfl

theorem tokensOf_lineDescription (level : Nat) (description : Option String) :
    tokensOf (lineDescription level description) = descriptionTokens description := by
  cases description <;> rfl

end Rows

/-! ## Single tokens -/

section Single

variable {ts : List Token}

theorem expect_run (t : Token) (ts : List Token) : (expect t).run (t :: ts) = some ((), ts) := by
  rw [expect, Phrase.run_next, if_pos rfl]
  rfl

theorem expect_rule_run (t : Token) (ts : List Token) :
    (expect t).rule.run (t :: ts) = some ((), ts) := expect_run t ts

theorem name_run (n : String) (ts : List Token) : namePhrase.run (.name n :: ts) = some (n, ts) := rfl

theorem name_rule_run (n : String) (ts : List Token) :
    namePhrase.rule.run (.name n :: ts) = some (n, ts) := rfl

theorem accept_run (t : Token) (ts : List Token) : (accept t).run (t :: ts) = some (true, ts) := by
  rw [accept, Rule.run_bind_some (Rule.run_peek _), List.head?_cons, if_pos rfl]
  exact Rule.run_bind_some (expect_rule_run t ts) _

theorem accept_run_other {t : Token} (h : ts.head? ≠ some t) :
    (accept t).run ts = some (false, ts) := by
  rw [accept, Rule.run_bind_some (Rule.run_peek _), if_neg h]
  rfl

/-- A mark with which the phrase before it may go on. -/
def Token.continues : Token → Bool
  | .mark .bang | .mark .openParen | .mark .openBrace | .mark .equals | .mark .atSign
  | .mark .pipe | .mark .ampersand => true
  | _ => false

/-- Nothing that goes on with the phrase before it follows. -/
def Stops (ts : List Token) : Prop := ∀ t ∈ ts.head?, t.continues = false

theorem Stops.head?_ne (h : Stops ts) {t : Token} (ht : t.continues = true) :
    ts.head? ≠ some t := by
  intro hhead
  rw [h t hhead] at ht
  cases ht

theorem stops_cons {t : Token} (h : t.continues = false) (ts : List Token) : Stops (t :: ts) := by
  intro s hs
  cases hs
  exact h

theorem stops_nil : Stops [] := fun _ h => by cases h

/-- A description is read in front of what it describes. -/
theorem description_run (description : Option String) (n : String) (ts : List Token) :
    descriptionRule.run (descriptionTokens description ++ .name n :: ts) =
      some (description, .name n :: ts) := by
  cases description with
  | none => rfl
  | some s =>
    rw [descriptionRule, Rule.run_bind_some (Rule.run_peek _)]
    exact Rule.run_bind_some (expect_rule_run (.text s) _) _

theorem stops_described (description : Option String) (n : String) (ts : List Token) :
    Stops (descriptionTokens description ++ .name n :: ts) := by
  cases description with
  | none => exact stops_cons rfl _
  | some s => exact stops_cons rfl _

/-- What begins with a name, or with a description before it, is not taken for a closing mark and goes
on with nothing before it, so only its own reading is left to show. -/
theorem rereads_described {α : Type} {p : Phrase Token α} {written : α → List Token} {x : α}
    {description : Option String} {n : String} {ts : List Token} (closing : Mark)
    (hwritten : written x = descriptionTokens description ++ .name n :: ts)
    (hrun : ∀ rest, Stops rest → p.run (written x ++ rest) = some (x, rest)) :
    Rule.Rereads (· != .mark closing) p written Stops x where
  run := hrun
  starts := by
    rw [hwritten]
    cases description <;> exact ⟨_, _, rfl, rfl⟩
  follows rest := by
    rw [hwritten, List.append_assoc, List.cons_append]
    exact stops_described _ _ _

end Single

/-! ## Groups -/

section Groups

variable {α : Type} {fits : Nat → α → Prop} {written : α → List Token}
  {member : Nat → Phrase Token α} {opening closing : Mark} {rest : List Token}

/-- A group whose members fit is read. -/
theorem optionalGroup_run {depth : Nat} {xs : List α} (h : GroupFits fits depth xs)
    (hmember : ∀ inner x, fits inner x →
      Rule.Rereads (· != .mark closing) (member inner) written Stops x)
    (hclosing : (Token.mark closing).continues = false)
    (hrest : rest.head? ≠ some (.mark opening)) :
    (optionalGroup opening closing member depth).run (groupTokens opening closing written xs ++ rest) =
      some (xs, rest) := by
  rw [optionalGroup, Rule.run_bind_some (Rule.run_peek _), groupTokens]
  cases xs with
  | nil =>
    rw [List.isEmpty_nil, if_pos rfl, List.nil_append, if_neg hrest]
    rfl
  | cons x xs =>
    rw [List.isEmpty_cons, if_neg Bool.false_ne_true, List.cons_append, List.head?_cons, if_pos rfl,
      group.eq_def, Rule.run_bind_some (expect_rule_run _ _)]
    cases depth with
    | zero => cases h
    | succ depth =>
      have hmembers := Rule.manyOne_run_flatMap (List.cons_ne_nil x xs)
        (fun y hy => hmember depth y (h y hy)) (stops_cons hclosing rest)
        (fun t ht => by cases ht; exact bne_self_eq_false' _)
      rw [List.append_assoc, List.singleton_append, Rule.run_bind_some hmembers]
      exact Rule.run_bind_some (expect_rule_run _ _) _

end Groups

/-! ## Values -/

section Values

variable {constant : Bool} {depth level : Nat} {rest : List Token}

theorem valuePhrase_run_atom {t : Token} (hlist : t ≠ .mark .openBracket)
    (hobject : t ≠ .mark .openBrace) (ts : List Token) :
    (valuePhrase constant depth).run (t :: ts) = (atomRest constant t).run ts := by
  cases depth with
  | zero => rfl
  | succ depth =>
    rw [valuePhrase, Phrase.run_next]
    split
    · exact absurd rfl hlist
    · exact absurd rfl hobject
    · rfl

theorem valueOfName_eq_enum {n : String} (htrue : n ≠ "true") (hfalse : n ≠ "false")
    (hnull : n ≠ "null") : valueOfName n = .enum n := by
  rw [valueOfName]
  · exact htrue
  · exact hfalse
  · exact hnull

theorem atom_run {v : Value} (hv : v.opensBracket = false) (h : v.Fits constant depth)
    (rest : List Token) :
    (valuePhrase constant depth).run (tokensOf (valuePieces level v) ++ rest) = some (v, rest) := by
  match v, hv with
  | .variable n, _ =>
    obtain ⟨rfl, -⟩ := Value.fits_variable_iff.1 h
    exact valuePhrase_run_atom (by simp) (by simp) (.name n :: rest)
  | .int n, _ => exact valuePhrase_run_atom (t := .int n) (by simp) (by simp) rest
  | .float x, _ => exact valuePhrase_run_atom (t := .float x) (by simp) (by simp) rest
  | .string s, _ => exact valuePhrase_run_atom (t := .text s) (by simp) (by simp) rest
  | .boolean true, _ => exact valuePhrase_run_atom (t := .name "true") (by simp) (by simp) rest
  | .boolean false, _ => exact valuePhrase_run_atom (t := .name "false") (by simp) (by simp) rest
  | .null, _ => exact valuePhrase_run_atom (t := .name "null") (by simp) (by simp) rest
  | .enum n, _ =>
    obtain ⟨-, htrue, hfalse, hnull⟩ := Value.fits_enum_iff.1 h
    have hread : (valuePhrase constant depth).run (.name n :: rest) = _ :=
      valuePhrase_run_atom (by simp) (by simp) rest
    rw [show tokensOf (valuePieces level (.enum n)) ++ rest = .name n :: rest from rfl, hread]
    exact congrArg (fun v => some (v, rest)) (valueOfName_eq_enum htrue hfalse hnull)

/-- No value begins with a closing mark. -/
theorem exists_tokensOf_value (level : Nat) (v : Value) :
    ∃ t ts, tokensOf (valuePieces level v) = t :: ts ∧
      (t != .mark .closeBracket) = true := by
  cases v with
  | boolean b => cases b <;> exact ⟨_, _, rfl, by decide⟩
  | _ => exact ⟨_, _, rfl, rfl⟩

/-- The entries of an object are put where they stand already. -/
theorem foldl_putEntry {front entries : List Entry}
    (h : (front ++ entries).Pairwise fun a b => a.1 < b.1) :
    entries.foldl (fun es e => Value.putEntry e.1 e.2 es) front = front ++ entries := by
  have hput : ∀ (front : List Entry) (e : Entry), (∀ a ∈ front, a.1 < e.1) →
      Value.putEntry e.1 e.2 front = front ++ [e] := by
    intro front e hfront
    induction front with
    | nil => rfl
    | cons a front ih =>
      have ha := hfront a List.mem_cons_self
      rw [Value.putEntry, if_neg (lt_asymm ha), if_neg (ne_of_gt ha),
        ih fun b hb => hfront b (List.mem_cons_of_mem a hb), List.cons_append]
  induction entries generalizing front with
  | nil => rw [List.foldl_nil, List.append_nil]
  | cons e entries ih =>
    have hbefore : ∀ a ∈ front, a.1 < e.1 :=
      fun a ha => (List.pairwise_append.1 h).2.2 a ha e List.mem_cons_self
    rw [List.foldl_cons, hput front e hbefore, ih (by simpa using h), List.append_assoc,
      List.singleton_append]

theorem ofEntries_eq {entries : List Entry} (h : entries.Pairwise fun a b => a.1 < b.1) :
    Value.ofEntries entries = .object entries :=
  congrArg Value.object (foldl_putEntry (by rwa [List.nil_append]))

theorem entry_run {α : Type} {p : Phrase Token α} {a : α} {ts : List Token}
    (h : p.run ts = some (a, rest)) (key : String) :
    (entryPhrase p).run (.name key :: .mark .colon :: ts) = some ((key, a), rest) := by
  rw [entryPhrase, Phrase.run_andThen (name_run key _),
    Rule.run_bind_some (expect_rule_run _ _)]
  exact Rule.run_bind_some h _

/-- **A written value is read.** -/
theorem value_run (level : Nat) {v : Value} (h : v.Fits constant depth) (rest : List Token) :
    (valuePhrase constant depth).run (tokensOf (valuePieces level v) ++ rest) = some (v, rest) := by
  induction depth generalizing v rest with
  | zero =>
    refine atom_run ?_ h rest
    cases v <;> first | rfl | cases h
  | succ depth ih =>
    match v, h with
    | .list items, h =>
      have hitems : ∀ v ∈ items, Rule.Rereads (· != .mark .closeBracket)
          (valuePhrase constant depth) (fun v => tokensOf (valuePieces level v)) (fun _ => True) v :=
        fun v hv => ⟨fun rest _ => ih (h v hv) rest, exists_tokensOf_value level v, fun _ => trivial⟩
      have hmany : (Rule.many (· != .mark .closeBracket) (valuePhrase constant depth)).run
          (items.flatMap (fun v => tokensOf (valuePieces level v)) ++ .mark .closeBracket :: rest) = _ :=
        Rule.many_run_flatMap hitems trivial fun t ht => by cases ht; rfl
      have htokens : tokensOf (valuePieces level (.list items)) ++ rest = .mark .openBracket ::
          (items.flatMap (fun v => tokensOf (valuePieces level v)) ++ .mark .closeBracket :: rest) := by
        rw [valuePieces, itemPieces_eq, tokensOf_append, tokensOf_cons, tokensOf_separated rfl,
          List.flatMap_map, List.append_assoc, List.append_assoc]
        rfl
      rw [htokens]
      show (listRest (valuePhrase constant depth)).run _ = _
      rw [listRest, Rule.run_bind_some hmany]
      exact Rule.run_bind_some (expect_rule_run _ _) _
    | .object entries, h =>
      have hentries : ∀ e ∈ entries, Rule.Rereads (· != .mark .closeBrace)
          (entryPhrase (valuePhrase constant depth)) (fun e => tokensOf (onePiece level e))
          (fun _ => True) e :=
        fun e he => ⟨fun rest _ => entry_run (ih (h.1 e he).2 rest) e.1, ⟨_, _, rfl, rfl⟩,
          fun _ => trivial⟩
      have hmany : (Rule.many (· != .mark .closeBrace) (entryPhrase (valuePhrase constant depth))).run
          (entries.flatMap (fun e => tokensOf (onePiece level e)) ++ .mark .closeBrace :: rest) = _ :=
        Rule.many_run_flatMap hentries trivial fun t ht => by cases ht; rfl
      have htokens : tokensOf (valuePieces level (.object entries)) ++ rest = .mark .openBrace ::
          (entries.flatMap (fun e => tokensOf (onePiece level e)) ++ .mark .closeBrace :: rest) := by
        rw [valuePieces, entryPieces_eq, tokensOf_append, tokensOf_cons, tokensOf_separated rfl,
          List.flatMap_map, List.append_assoc, List.append_assoc]
        rfl
      rw [htokens]
      show (objectRest (valuePhrase constant depth)).run _ = _
      rw [objectRest, Rule.run_bind_some hmany,
        Rule.run_bind_some (expect_rule_run _ _), ofEntries_eq h.2]
      rfl
    | .variable n, h | .int n, h | .float n, h | .string n, h | .boolean n, h | .null, h
    | .enum n, h => exact atom_run rfl h rest

end Values

/-! ## Types -/

section Types

variable {depth : Nat}

theorem bangRest_run_other (t : WrittenType) {rest : List Token}
    (h : rest.head? ≠ some (.mark .bang)) : (bangRest t).run rest = some (t, rest) := by
  rw [bangRest, Rule.run_bind_some (accept_run_other h)]
  rfl

theorem bangRest_run (t : WrittenType) (rest : List Token) :
    (bangRest t).run (.mark .bang :: rest) = some (.nonNull t, rest) := by
  rw [bangRest, Rule.run_bind_some (accept_run _ _)]
  rfl

/-- Behind a type that is not non-null the mark of a non-null type is looked for. -/
theorem type_run_bangRest {t : WrittenType} (h : t.Fits depth) (rest : List Token) :
    (typePhrase depth).run (tokensOf (typePieces t) ++ rest) =
      (if t.isNonNull then pure t else bangRest t).run rest := by
  induction t generalizing depth rest with
  | named n => cases depth <;> rfl
  | nonNull inner ih =>
    obtain ⟨hinner, hfits⟩ : inner.isNonNull = false ∧ inner.Fits depth := by
      cases depth <;> exact h
    rw [typePieces, tokensOf_append, List.append_assoc, ih hfits, hinner, if_neg Bool.false_ne_true]
    exact bangRest_run inner rest
  | list item ih =>
    cases depth with
    | zero => cases h
    | succ depth =>
      have hitem : (typePhrase depth).rule.run
          (tokensOf (typePieces item) ++ .mark .closeBracket :: rest) =
            some (item, .mark .closeBracket :: rest) := by
        refine (ih h _).trans ?_
        cases item.isNonNull with
        | true => rfl
        | false => exact bangRest_run_other item (by simp)
      have htokens : tokensOf (typePieces (.list item)) ++ rest =
          .mark .openBracket :: (tokensOf (typePieces item) ++ .mark .closeBracket :: rest) := by
        rw [typePieces, tokensOf_append, tokensOf_cons, List.append_assoc, List.append_assoc]
        rfl
      rw [htokens, typePhrase, Phrase.run_next]
      simp only
      rw [Rule.run_bind_some hitem]
      exact Rule.run_bind_some (expect_rule_run _ _) _

/-- **A written type is read.** -/
theorem type_run {t : WrittenType} (h : t.Fits depth) {rest : List Token}
    (hrest : rest.head? ≠ some (.mark .bang)) :
    (typePhrase depth).run (tokensOf (typePieces t) ++ rest) = some (t, rest) := by
  rw [type_run_bangRest h]
  cases t.isNonNull with
  | true => rfl
  | false => exact bangRest_run_other t hrest

end Types

/-! ## Directives, input values, fields -/

section Parts

variable {depth level : Nat} {rest : List Token}

theorem tokensOf_directive (level : Nat) (d : Directive) :
    tokensOf (directivePieces level d) = .mark .atSign :: .name d.name ::
      groupTokens .openParen .closeParen (fun e => tokensOf (onePiece level e)) d.arguments := by
  rw [directivePieces, entryPieces_eq, tokensOf_cons, tokensOf_cons, tokensOf_cons, tokensOf_grouped]
  rfl

theorem directive_run {d : Directive} (h : d.Fits depth)
    (hrest : rest.head? ≠ some (.mark .openParen)) :
    (directivePhrase depth).run (tokensOf (directivePieces level d) ++ rest) = some (d, rest) := by
  have hmember : ∀ inner e, Entry.Fits false inner e → Rule.Rereads (· != .mark .closeParen)
      (entryPhrase (valuePhrase false inner)) (fun e => tokensOf (onePiece level e)) Stops e :=
    fun inner e he => ⟨fun ts _ => entry_run (value_run level he.2 ts) e.1, ⟨_, _, rfl, rfl⟩,
      fun ts => stops_cons rfl _⟩
  have hargs := optionalGroup_run h.arguments hmember rfl hrest
  rw [tokensOf_directive, List.cons_append, List.cons_append, directivePhrase,
    Phrase.run_andThen (expect_run _ _),
    Rule.run_bind_some (name_rule_run d.name _), Rule.run_bind_some hargs]
  rfl

theorem tokensOf_directives (level : Nat) (ds : List Directive) :
    tokensOf (directivesPieces level ds) = ds.flatMap fun d => tokensOf (directivePieces level d) := by
  induction ds with
  | nil => rfl
  | cons d ds ih =>
    rw [directivesPieces, List.flatMap_cons, tokensOf_append, List.flatMap_cons]
    exact congrArg (_ ++ ·) ih

theorem directives_run (level : Nat) {ds : List Directive} (h : DirectivesFit depth ds)
    (hparen : rest.head? ≠ some (.mark .openParen)) (hat : rest.head? ≠ some (.mark .atSign)) :
    (directivesRule depth).run (tokensOf (directivesPieces level ds) ++ rest) = some (ds, rest) := by
  rw [tokensOf_directives]
  have hdirective : ∀ d ∈ ds, Rule.Rereads (· == .mark .atSign) (directivePhrase depth)
      (fun d => tokensOf (directivePieces level d)) (fun ts => ts.head? ≠ some (.mark .openParen)) d := by
    refine fun d hd => ⟨fun ts hts => directive_run (h d hd) hts,
      ⟨_, _, tokensOf_directive level d, rfl⟩, fun ts => ?_⟩
    rw [tokensOf_directive]
    simp
  refine Rule.many_run_flatMap hdirective hparen fun t ht => beq_eq_false_iff_ne.2 ?_
  rintro rfl
  exact hat ht

/-- The first token of directives, or of what follows them, is an at sign or the first one there. -/
theorem head?_directives_ne (level : Nat) (ds : List Directive) {t : Token} (ht : t ≠ .mark .atSign)
    (hrest : rest.head? ≠ some t) :
    (tokensOf (directivesPieces level ds) ++ rest).head? ≠ some t := by
  cases ds with
  | nil => exact hrest
  | cons d ds =>
    rw [tokensOf_directives, List.flatMap_cons, tokensOf_directive]
    simpa using Ne.symm ht

theorem tokensOf_inputValue (level : Nat) (v : InputValue) :
    tokensOf (inputValuePieces level v) = descriptionTokens v.description ++ .name v.name ::
      .mark .colon :: (tokensOf (typePieces v.type) ++
        (v.defaultValue.elim [] (fun value => .mark .equals :: tokensOf (valuePieces level value)) ++
          tokensOf (directivesPieces level v.directives))) := by
  rw [inputValuePieces]
  simp only [tokensOf_append, tokensOf_cons, tokensOf_inlineDescription, List.append_assoc]
  cases v.defaultValue <;> rfl

theorem inputValue_run {v : InputValue} (h : v.Fits depth) (hrest : Stops rest) :
    (inputValuePhrase depth).run (tokensOf (inputValuePieces level v) ++ rest) = some (v, rest) := by
  have hdirectives := directives_run level h.directives (hrest.head?_ne rfl)
    (hrest.head?_ne rfl)
  rw [tokensOf_inputValue, List.append_assoc, List.cons_append, List.cons_append, List.append_assoc,
    List.append_assoc, inputValuePhrase, Phrase.run_after (description_run _ _ _),
    Phrase.run_andThen (name_run v.name _),
    Rule.run_bind_some (expect_rule_run _ _)]
  cases hvalue : v.defaultValue with
  | none =>
    have htype := type_run h.type (head?_directives_ne level v.directives (by simp)
      (hrest.head?_ne (t := .mark .bang) rfl))
    have hnone := accept_run_other (head?_directives_ne level v.directives (by simp)
      (hrest.head?_ne (t := .mark .equals) rfl))
    rw [Option.elim_none, List.nil_append, Rule.run_bind_some (p := (typePhrase depth).rule) htype,
      Rule.run_bind_some hnone, if_neg Bool.false_ne_true,
      Rule.run_bind_some (Rule.run_pure none _), Rule.run_bind_some hdirectives, ← hvalue]
    rfl
  | some value =>
    have hread := value_run level (h.defaultValue value hvalue)
      (tokensOf (directivesPieces level v.directives) ++ rest)
    rw [Option.elim_some, List.cons_append,
      Rule.run_bind_some (p := (typePhrase depth).rule) (type_run h.type (by simp)),
      Rule.run_bind_some (accept_run _ _), if_pos rfl,
      Rule.run_bind_some (Rule.run_map_some (p := (valuePhrase true depth).rule) hread some),
      Rule.run_bind_some hdirectives, ← hvalue]
    rfl

/-- Input values are read in a row. -/
theorem rereads_inputValue {closing : Mark} {v : InputValue} (h : v.Fits depth) :
    Rule.Rereads (· != .mark closing) (inputValuePhrase depth)
      (fun v => tokensOf (inputValuePieces level v)) Stops v :=
  rereads_described closing (tokensOf_inputValue level v) fun _ => inputValue_run h

theorem arguments_run (level : Nat) {vs : List InputValue}
    (h : GroupFits InputValue.Fits depth vs)
    (hrest : rest.head? ≠ some (.mark .openParen)) :
    (argumentsRule depth).run (tokensOf (argumentsPieces level vs) ++ rest) = some (vs, rest) := by
  rw [argumentsPieces, tokensOf_grouped]
  exact optionalGroup_run h (fun _ _ => rereads_inputValue) rfl hrest

theorem tokensOf_field (level : Nat) (f : WrittenField) :
    tokensOf (fieldPieces level f) = descriptionTokens f.description ++ .name f.name ::
      (tokensOf (argumentsPieces level f.arguments) ++ .mark .colon ::
        (tokensOf (typePieces f.type) ++ tokensOf (directivesPieces level f.directives))) := by
  rw [fieldPieces]
  simp only [tokensOf_append, tokensOf_cons, tokensOf_lineDescription, List.append_assoc]
  simp [Piece.token?, Piece.indent, Piece.space, Piece.line]

theorem field_run {f : WrittenField} (h : f.Fits depth) (hrest : Stops rest) :
    (fieldPhrase depth).run (tokensOf (fieldPieces level f) ++ rest) = some (f, rest) := by
  have hdirectives := directives_run level h.directives (hrest.head?_ne rfl)
    (hrest.head?_ne rfl)
  have htype := type_run h.type (head?_directives_ne level f.directives (by simp)
    (hrest.head?_ne (t := .mark .bang) rfl))
  have hargs : (argumentsRule depth).run (tokensOf (argumentsPieces level f.arguments) ++
      .mark .colon :: (tokensOf (typePieces f.type) ++
        (tokensOf (directivesPieces level f.directives) ++ rest))) = _ :=
    arguments_run level h.arguments (by simp)
  rw [tokensOf_field]
  simp only [List.append_assoc, List.cons_append]
  rw [fieldPhrase, Phrase.run_after (description_run _ _ _), Phrase.run_andThen (name_run f.name _),
    Rule.run_bind_some hargs,
    Rule.run_bind_some (expect_rule_run _ _),
    Rule.run_bind_some (p := (typePhrase depth).rule) htype, Rule.run_bind_some hdirectives]
  rfl

theorem rereads_field {f : WrittenField} (h : f.Fits depth) :
    Rule.Rereads (· != .mark .closeBrace) (fieldPhrase depth)
      (fun f => tokensOf (fieldPieces level f)) Stops f :=
  rereads_described .closeBrace (tokensOf_field level f) fun _ => field_run h

theorem tokensOf_enumValue (level : Nat) (v : EnumValue) :
    tokensOf (enumValuePieces level v) = descriptionTokens v.description ++ .name v.name ::
      tokensOf (directivesPieces level v.directives) := by
  rw [enumValuePieces]
  simp only [tokensOf_append, tokensOf_cons, tokensOf_inlineDescription, List.append_assoc]
  simp [Piece.token?, Piece.indent, Piece.line]

theorem enumValue_run {v : EnumValue} (h : v.Fits depth) (hrest : Stops rest) :
    (enumValuePhrase depth).run (tokensOf (enumValuePieces level v) ++ rest) = some (v, rest) := by
  have hdirectives := directives_run level h.directives (hrest.head?_ne rfl)
    (hrest.head?_ne rfl)
  rw [tokensOf_enumValue, List.append_assoc, List.cons_append, enumValuePhrase,
    Phrase.run_after (description_run _ _ _), Phrase.run_andThen (name_run v.name _),
    Rule.run_bind_some hdirectives]
  rfl

theorem rereads_enumValue {v : EnumValue} (h : v.Fits depth) :
    Rule.Rereads (· != .mark .closeBrace) (enumValuePhrase depth)
      (fun v => tokensOf (enumValuePieces level v)) Stops v :=
  rereads_described .closeBrace (tokensOf_enumValue level v) fun _ => enumValue_run h

/-- Input fields are read like arguments. -/
theorem rereads_inputField {v : InputValue} (h : v.Fits depth) :
    Rule.Rereads (· != .mark .closeBrace) (inputValuePhrase depth)
      (fun v => tokensOf (inputFieldPieces level v)) Stops v := by
  have htokens : ∀ v, tokensOf (inputFieldPieces level v) = tokensOf (inputValuePieces level v) := by
    intro v
    rw [inputFieldPieces, tokensOf_append, tokensOf_cons]
    exact List.append_nil _
  simp only [htokens]
  exact rereads_inputValue h

end Parts

end SemanticNullability.Sdl
