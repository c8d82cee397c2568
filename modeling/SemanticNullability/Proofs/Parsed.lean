import Mathlib.Data.String.Basic
import SemanticNullability.Proofs.Fits
import SemanticNullability.Proofs.Grammar
import SemanticNullability.Sdl.Definition
/-!
# What is parsed fits

The tokens of a text are well formed: names are names, and floating-point values are the ones of their
significand and exponent. From well-formed tokens each rule of the grammar reads something that fits,
with as many brackets as the depth allows. The lemmas follow the rules, and `Rule.Yields` puts them
together.
-/
namespace SemanticNullability.Sdl

/-! ## Tokens of a text -/

/-- A token whose name is a name and whose floating-point value is the one of its significand and
exponent. -/
def Token.IsWellFormed : Token → Prop
  | .name n => IsName n
  | .float x => x.IsCanonical
  | _ => True

section Tokens

/-- Of characters, which are all of one kind, only what is read counts. -/
theorem yields_chars {α : Type} {r : Rule Char α} {property : α → Prop}
    (h : ∀ cs a rest, r.run cs = some (a, rest) → property a) :
    r.Yields (fun _ => True) property :=
  fun cs a rest _ hrun => ⟨h cs a rest hrun, fun _ _ => trivial⟩

theorem isCanonical_of_numberTail? {negative : Bool} {whole cs : List Char} {x : Binary64}
    (h : numberTail? negative whole cs = some (.float x)) : x.IsCanonical := by
  have hfloat : ∀ fraction exponent, (floatOf negative whole fraction exponent).IsCanonical :=
    fun _ _ => Binary64.isCanonical_ofDecimal _ _
  unfold numberTail? at h
  split at h
  · obtain ⟨n, _, hn⟩ := Option.map_eq_some_iff.1 h
    cases hn
  · dsimp only at h
    split_ifs at h
    split at h
    · cases h
      exact hfloat _ _
    · split_ifs at h
      obtain ⟨e, _, he⟩ := Option.map_eq_some_iff.1 h
      cases he
      exact hfloat _ _
  · split_ifs at h
    obtain ⟨e, _, he⟩ := Option.map_eq_some_iff.1 h
    cases he
    exact hfloat _ _

theorem isWellFormed_of_number? {cs : List Char} {n : Number} (h : number? cs = some n) :
    n.token.IsWellFormed := by
  have hunsigned : ∀ negative cs x, unsignedNumber? negative cs = some (.float x) →
      x.IsCanonical := by
    intro negative cs x hx
    unfold unsignedNumber? at hx
    dsimp only at hx
    split_ifs at hx
    exact isCanonical_of_numberTail? hx
  cases n with
  | int n => trivial
  | float x =>
    unfold number? at h
    split at h
    · exact hunsigned _ _ x h
    · exact hunsigned _ _ x h

theorem yields_tokenRest (c : Char) : (tokenRest c).Yields (fun _ => True) Token.IsWellFormed := by
  have hname : (charsWhile isNameChar).Yields (fun _ => True) fun cs => cs.all isNameChar = true := by
    refine yields_chars fun cs a rest hrun => ?_
    cases hrun
    exact List.all_takeWhile
  have hany : ∀ r : Rule Char (List Char), r.Yields (fun _ => True) fun _ => True :=
    fun r => yields_chars fun _ _ _ _ => trivial
  unfold tokenRest
  split
  · exact Rule.yields_pure trivial
  · split_ifs with hstart hnumber hquote
    · refine hname.bind fun cs hcs => Rule.yields_pure ?_
      show isNameText (String.ofList (c :: cs)).toList = true
      rw [String.toList_ofList, isNameText, hstart, hcs]
      rfl
    · refine (hany _).bind fun cs _ => ?_
      split
      · rename_i n hn
        exact Rule.yields_pure (isWellFormed_of_number? hn)
      · exact Rule.yields_refuse
    · exact (hany _).bind fun cs _ => Rule.yields_pure trivial
    · exact Rule.yields_refuse

/-- **The tokens of a text are well formed.** -/
theorem isWellFormed_of_ofText? {text : String} {ts : List Token}
    (h : Token.ofText? text = some ts) : ∀ t ∈ ts, t.IsWellFormed := by
  obtain ⟨⟨us, rest⟩, hrun, rfl⟩ := Option.map_eq_some_iff.1 h
  have hignored : ignored.Yields (fun _ => True) fun _ => True := yields_chars fun _ _ _ _ => trivial
  have htoken : token.Yields (fun _ => True) Token.IsWellFormed :=
    Phrase.yields_next fun c _ => (yields_tokenRest c).bind fun t ht =>
      hignored.bind fun _ _ => Rule.yields_pure ht
  have htokens : tokens.Yields (fun _ => True) fun ts => ∀ t ∈ ts, t.IsWellFormed :=
    hignored.bind fun _ _ => Rule.yields_many htoken
  exact (htokens _ us rest (fun _ _ => trivial) hrun).1

end Tokens

/-! ## Values -/

section Values

variable {depth : Nat}

theorem mem_putEntry {key : String} {value : Value} {entries : List Entry} {e : Entry}
    (h : e ∈ Value.putEntry key value entries) : e = (key, value) ∨ e ∈ entries := by
  fun_induction Value.putEntry key value entries with
  | case1 => exact Or.inl (List.mem_singleton.1 h)
  | case2 k v rest _ => exact List.mem_cons.1 h
  | case3 v rest => exact (List.mem_cons.1 h).imp_right (List.mem_cons_of_mem _)
  | case4 k v rest _ _ ih =>
    rcases List.mem_cons.1 h with rfl | hrest
    · exact Or.inr List.mem_cons_self
    · exact (ih hrest).imp_right (List.mem_cons_of_mem _)

/-- Entries stay in order when another is put among them. -/
theorem pairwise_putEntry (key : String) (value : Value) {entries : List Entry}
    (h : entries.Pairwise fun a b => a.1 < b.1) :
    (Value.putEntry key value entries).Pairwise fun a b => a.1 < b.1 := by
  fun_induction Value.putEntry key value entries with
  | case1 => exact List.pairwise_singleton _ _
  | case2 k v rest hlt =>
    refine List.pairwise_cons.2 ⟨fun e he => ?_, h⟩
    rcases List.mem_cons.1 he with rfl | hrest
    · exact hlt
    · exact lt_trans hlt ((List.pairwise_cons.1 h).1 e hrest)
  | case3 v rest => exact List.pairwise_cons.2 ⟨(List.pairwise_cons.1 h).1, (List.pairwise_cons.1 h).2⟩
  | case4 k v rest hlt hne ih =>
    obtain ⟨hhead, hrest⟩ := List.pairwise_cons.1 h
    refine List.pairwise_cons.2 ⟨fun e he => ?_, ih hrest⟩
    rcases mem_putEntry he with rfl | hmem
    · exact lt_of_le_of_ne (not_lt.1 hlt) (Ne.symm hne)
    · exact hhead e hmem

theorem fits_ofEntries {constant : Bool} {entries : List Entry}
    (h : ∀ e ∈ entries, Entry.Fits constant depth e) :
    (Value.ofEntries entries).Fits constant (depth + 1) := by
  have hfold : ∀ entries front : List Entry, (∀ e ∈ entries, Entry.Fits constant depth e) →
      (∀ e ∈ front, Entry.Fits constant depth e) → front.Pairwise (fun a b => a.1 < b.1) →
      let all := entries.foldl (fun es e => Value.putEntry e.1 e.2 es) front
      (∀ e ∈ all, Entry.Fits constant depth e) ∧ all.Pairwise fun a b => a.1 < b.1 := by
    intro entries
    induction entries with
    | nil => exact fun front _ hfront hsorted => ⟨hfront, hsorted⟩
    | cons e entries ih =>
      intro front hentries hfront hsorted
      refine ih _ (fun a ha => hentries a (List.mem_cons_of_mem e ha)) (fun a ha => ?_)
        (pairwise_putEntry e.1 e.2 hsorted)
      rcases mem_putEntry ha with rfl | hmem
      · exact hentries e List.mem_cons_self
      · exact hfront a hmem
  exact hfold entries [] h (fun e he => absurd he List.not_mem_nil) List.Pairwise.nil

/-- What the rule reads of well-formed tokens has the property. -/
abbrev Parses {α : Type} (r : Rule Token α) (property : α → Prop) : Prop :=
  r.Yields Token.IsWellFormed property

theorem parses_name : Parses namePhrase.rule IsName :=
  Phrase.yields_next fun t ht => by
    split
    · exact Rule.yields_pure ht
    · exact Rule.yields_refuse

theorem parses_expect (t : Token) : Parses (expect t).rule fun _ => True :=
  Phrase.yields_next fun s _ => by
    split_ifs
    · exact Rule.yields_pure trivial
    · exact Rule.yields_refuse

theorem parses_accept (t : Token) : Parses (accept t) fun _ => True :=
  Rule.yields_peek.bind fun s _ => by
    split_ifs
    · exact (parses_expect t).bind fun _ _ => Rule.yields_pure trivial
    · exact Rule.yields_pure trivial

theorem parses_entry {α : Type} {p : Phrase Token α} {property : α → Prop}
    (h : Parses p.rule property) :
    Parses (entryPhrase p).rule fun e => IsName e.1 ∧ property e.2 :=
  Phrase.Yields.andThen parses_name fun _ hn => (parses_expect _).bind fun _ _ =>
    Rule.Yields.bind h fun _ ha => Rule.yields_pure ⟨hn, ha⟩

theorem parses_group {α : Type} (opening closing : Mark) {member : Nat → Phrase Token α}
    {fits : Nat → α → Prop} (h : ∀ inner, Parses (member inner).rule (fits inner)) (depth : Nat) :
    Parses (group opening closing member depth) (GroupFits fits depth) := by
  refine (parses_expect _).bind fun _ _ => ?_
  cases depth with
  | zero => exact Rule.yields_refuse
  | succ depth =>
    exact (Rule.yields_manyOne (h depth)).bind fun _ hall => (parses_expect _).bind fun _ _ =>
      Rule.yields_pure hall

theorem parses_optionalGroup {α : Type} (opening closing : Mark) {member : Nat → Phrase Token α}
    {fits : Nat → α → Prop} (h : ∀ inner, Parses (member inner).rule (fits inner)) (depth : Nat) :
    Parses (optionalGroup opening closing member depth) (GroupFits fits depth) :=
  Rule.yields_peek.bind fun t _ => by
    split_ifs
    · exact parses_group opening closing h depth
    · exact Rule.yields_pure (groupFits_nil fits depth)

theorem fits_valueOfName {constant : Bool} {n : String} (h : IsName n) :
    (valueOfName n).Fits constant depth := by
  unfold valueOfName
  split
  · cases depth <;> trivial
  · cases depth <;> trivial
  · cases depth <;> trivial
  · exact Value.fits_enum_iff.2 ⟨h, ‹_›, ‹_›, ‹_›⟩

theorem parses_atom (constant : Bool) {t : Token} (ht : t.IsWellFormed) :
    Parses (atomRest constant t) (Value.Fits constant depth) := by
  unfold atomRest
  split
  · exact Rule.yields_pure (fits_valueOfName ht)
  · exact Rule.yields_pure (by cases depth <;> trivial)
  · exact Rule.yields_pure (Value.fits_float_iff.2 ht)
  · exact Rule.yields_pure (by cases depth <;> trivial)
  · split_ifs with hconstant
    · exact Rule.yields_refuse
    · exact parses_name.map fun n hn =>
        Value.fits_variable_iff.2 ⟨Bool.not_eq_true _ ▸ hconstant, hn⟩
  · exact Rule.yields_refuse

/-- **A value that is parsed fits.** -/
theorem parses_value (constant : Bool) (depth : Nat) :
    Parses (valuePhrase constant depth).rule (Value.Fits constant depth) := by
  induction depth with
  | zero => exact Phrase.yields_next fun t ht => parses_atom constant ht
  | succ depth ih =>
    refine Phrase.yields_next fun t ht => ?_
    split
    · exact (Rule.yields_many ih).bind fun items hitems => (parses_expect _).bind fun _ _ =>
        Rule.yields_pure hitems
    · exact (Rule.yields_many (parses_entry ih)).bind fun entries hentries =>
        (parses_expect _).bind fun _ _ => Rule.yields_pure (fits_ofEntries hentries)
    · exact parses_atom constant ht

end Values

/-! ## Types -/

theorem WrittenType.fits_named {depth : Nat} {n : String} (h : IsName n) :
    (WrittenType.named n).Fits depth := by
  cases depth <;> exact h

theorem parses_bang {depth : Nat} {t : WrittenType} (h : t.Fits depth) (ht : t.isNonNull = false) :
    Parses (bangRest t) (WrittenType.Fits depth) :=
  (parses_accept _).bind fun bang _ => by
    split_ifs
    · exact Rule.yields_pure (by cases depth <;> exact ⟨ht, h⟩)
    · exact Rule.yields_pure h

/-- **A type that is parsed fits.** -/
theorem parses_type (depth : Nat) : Parses (typePhrase depth).rule (WrittenType.Fits depth) := by
  induction depth with
  | zero =>
    refine Phrase.yields_next fun t ht => ?_
    split
    · exact parses_bang (WrittenType.fits_named ht) rfl
    · exact Rule.yields_refuse
  | succ depth ih =>
    refine Phrase.yields_next fun t ht => ?_
    split
    · exact parses_bang (WrittenType.fits_named ht) rfl
    · exact Rule.Yields.bind ih fun item hitem => (parses_expect _).bind fun _ _ =>
        parses_bang (show (WrittenType.list item).Fits (depth + 1) from hitem) rfl
    · exact Rule.yields_refuse

/-! ## Directives, input values, fields -/

section Parts

variable {description : Option String}

theorem parses_directives (depth : Nat) : Parses (directivesRule depth) (DirectivesFit depth) := by
  have hdirective : Parses (directivePhrase depth).rule (Directive.Fits depth) :=
    Phrase.Yields.andThen (parses_expect _) fun _ _ => parses_name.bind fun n hn =>
      (parses_optionalGroup _ _ (fun inner => parses_entry (parses_value false inner)) depth).bind
        fun _ hargs => Rule.yields_pure ⟨hn, hargs⟩
  exact Rule.yields_many hdirective

theorem parses_description : Parses descriptionRule fun _ => True :=
  Rule.yields_peek.bind fun t _ => by
    split
    · exact (parses_expect _).bind fun _ _ => Rule.yields_pure trivial
    · exact Rule.yields_pure trivial

theorem parses_inputValue (depth : Nat) :
    Parses (inputValuePhrase depth).rule (InputValue.Fits depth) := by
  refine Phrase.yields_after parses_description fun description _ =>
    Phrase.Yields.andThen parses_name fun n hn => (parses_expect _).bind fun _ _ =>
      Rule.Yields.bind (parses_type depth) fun type htype => (parses_accept _).bind fun equals _ => ?_
  have hrest : ∀ value : Option Value, (∀ v ∈ value, v.Fits true depth) →
      Parses (directivesRule depth >>= fun ds => pure ⟨n, description, type, value, ds⟩)
        (InputValue.Fits depth) :=
    fun value hvalue => (parses_directives depth).bind fun ds hds =>
      Rule.yields_pure ⟨hn, htype, hvalue, hds⟩
  dsimp only
  split_ifs
  · have hvalue : Parses (some <$> (valuePhrase true depth).rule) fun value =>
        ∀ v ∈ value, v.Fits true depth :=
      Rule.Yields.map (parses_value true depth) fun v hv w hw => by cases hw; exact hv
    exact hvalue.bind hrest
  · exact hrest none fun v hv => by cases hv

theorem parses_arguments (depth : Nat) :
    Parses (argumentsRule depth) (GroupFits InputValue.Fits depth) :=
  parses_optionalGroup _ _ parses_inputValue depth

theorem parses_field (depth : Nat) : Parses (fieldPhrase depth).rule (WrittenField.Fits depth) :=
  Phrase.yields_after parses_description fun _ _ => Phrase.Yields.andThen parses_name fun _ hn =>
    (parses_arguments depth).bind fun _ hargs => (parses_expect _).bind fun _ _ =>
      Rule.Yields.bind (parses_type depth) fun _ htype => (parses_directives depth).bind fun _ hds =>
        Rule.yields_pure ⟨hn, hargs, htype, hds⟩

theorem parses_enumValue (depth : Nat) :
    Parses (enumValuePhrase depth).rule (EnumValue.Fits depth) :=
  Phrase.yields_after parses_description fun _ _ => Phrase.Yields.andThen parses_name fun _ hn =>
    (parses_directives depth).bind fun _ hds => Rule.yields_pure ⟨hn, hds⟩

end Parts

/-! ## Definitions -/

section Definitions

variable (depth : Nat) (description : Option String)

theorem parses_marked {α : Type} (m : Mark) {p : Phrase Token α} {property : α → Prop}
    (h : Parses p.rule property) : Parses (markedList m p) fun as => ∀ a ∈ as, property a := by
  have hone : Parses ((expect (.mark m)).andThen fun _ => p.rule).rule property :=
    Phrase.Yields.andThen (parses_expect _) fun _ _ => h
  exact (parses_accept _).bind fun _ _ => Rule.Yields.bind h fun _ ha =>
    (Rule.yields_many hone).bind fun _ has => Rule.yields_pure (List.forall_mem_cons.2 ⟨ha, has⟩)

theorem parses_interfaces : Parses interfacesRule fun ns => ∀ n ∈ ns, IsName n :=
  (parses_accept _).bind fun found _ => by
    split_ifs
    · exact parses_marked _ parses_name
    · exact Rule.yields_pure fun n hn => absurd hn List.not_mem_nil

structure FieldedFits (t : FieldedType WrittenField) : Prop where
  name : IsName t.name
  interfaces : ∀ n ∈ t.interfaces, IsName n
  directives : DirectivesFit depth t.directives
  fields : GroupFits WrittenField.Fits depth t.fields

theorem parses_fielded : Parses (fieldedRule depth description) (FieldedFits depth) :=
  parses_name.bind fun _ hn => parses_interfaces.bind fun _ hns => (parses_directives depth).bind
    fun _ hds => (parses_optionalGroup _ _ parses_field depth).bind fun _ hfs =>
      Rule.yields_pure ⟨hn, hns, hds, hfs⟩

/-- **A type definition that is parsed fits.** -/
theorem parses_typeRest (word : String) :
    Parses (typeRest depth description word) (TypeDefinition.Fits WrittenField.Fits depth) := by
  have hnone : ∀ n ∈ ([] : List String), IsName n := fun n hn => absurd hn List.not_mem_nil
  unfold typeRest
  split
  · have hscalar : Parses (scalarRule depth description) fun t =>
        IsName t.name ∧ DirectivesFit depth t.directives :=
      parses_name.bind fun _ hn => (parses_directives depth).bind fun _ hds =>
        Rule.yields_pure ⟨hn, hds⟩
    exact hscalar.map fun t ht =>
      ⟨ht.1, hnone, ht.2, hnone, groupFits_nil _ _, groupFits_nil _ _, groupFits_nil _ _⟩
  · exact (parses_fielded depth description).map fun t ht =>
      ⟨ht.name, ht.interfaces, ht.directives, hnone, ht.fields, groupFits_nil _ _, groupFits_nil _ _⟩
  · exact (parses_fielded depth description).map fun t ht =>
      ⟨ht.name, ht.interfaces, ht.directives, hnone, ht.fields, groupFits_nil _ _, groupFits_nil _ _⟩
  · have hunion : Parses (unionRule depth description) fun t =>
        IsName t.name ∧ DirectivesFit depth t.directives ∧ ∀ n ∈ t.members, IsName n := by
      refine parses_name.bind fun n hn => (parses_directives depth).bind fun ds hds =>
        (parses_accept _).bind fun equals _ => ?_
      dsimp only
      split_ifs
      · exact (parses_marked _ parses_name).bind fun ms hms => Rule.yields_pure ⟨hn, hds, hms⟩
      · exact Rule.yields_pure ⟨hn, hds, hnone⟩
    exact hunion.map fun t ht =>
      ⟨ht.1, hnone, ht.2.1, ht.2.2, groupFits_nil _ _, groupFits_nil _ _, groupFits_nil _ _⟩
  · have henum : Parses (enumRule depth description) fun t =>
        IsName t.name ∧ DirectivesFit depth t.directives ∧
          GroupFits EnumValue.Fits depth t.values :=
      parses_name.bind fun _ hn => (parses_directives depth).bind fun _ hds =>
        (parses_optionalGroup _ _ parses_enumValue depth).bind fun _ hvs =>
          Rule.yields_pure ⟨hn, hds, hvs⟩
    exact henum.map fun t ht =>
      ⟨ht.1, hnone, ht.2.1, hnone, groupFits_nil _ _, ht.2.2, groupFits_nil _ _⟩
  · have hinput : Parses (inputObjectRule depth description) fun t =>
        IsName t.name ∧ DirectivesFit depth t.directives ∧
          GroupFits InputValue.Fits depth t.fields :=
      parses_name.bind fun _ hn => (parses_directives depth).bind fun _ hds =>
        (parses_optionalGroup _ _ parses_inputValue depth).bind fun _ hvs =>
          Rule.yields_pure ⟨hn, hds, hvs⟩
    exact hinput.map fun t ht =>
      ⟨ht.1, hnone, ht.2.1, hnone, groupFits_nil _ _, groupFits_nil _ _, ht.2.2⟩
  · exact Rule.yields_refuse

/-- The roots that are listed are roots of the list. -/
theorem mem_of_rootsOfList {listed : List (Operation × String)} {roots : Roots}
    (h : rootsOfList listed = some roots) {op : Operation} {n : String}
    (hn : roots.get? op = some n) : (op, n) ∈ listed := by
  induction listed generalizing roots with
  | nil =>
    cases h
    cases op <;> cases hn
  | cons r listed ih =>
    obtain ⟨others, hothers, hset⟩ := Option.bind_eq_some_iff.1 h
    split_ifs at hset
    cases hset
    rw [Roots.get?_set] at hn
    split_ifs at hn with hop
    · cases hn
      rw [hop]
      exact List.mem_cons_self
    · exact List.mem_cons_of_mem r (ih hothers hn)

theorem parses_schema : Parses (schemaRest depth) (SchemaBlock.Fits depth) := by
  have hroot : Parses rootPhrase.rule fun r => IsName r.2 :=
    Phrase.Yields.andThen (parses_entry parses_name) fun r hr => by
      dsimp only
      split
      · exact Rule.yields_pure hr.2
      · exact Rule.yields_refuse
  refine (parses_directives depth).bind fun ds hds => (parses_expect _).bind fun _ _ =>
    (Rule.yields_many hroot).bind fun listed hlisted => (parses_expect _).bind fun _ _ => ?_
  split
  · rename_i roots hroots
    exact Rule.yields_pure ⟨hds, fun op n hn => hlisted (op, n) (mem_of_rootsOfList hroots hn)⟩
  · exact Rule.yields_refuse

theorem parses_directiveRest :
    Parses (directiveRest depth description) (DirectiveDefinition.Fits depth) := by
  have hlocation : Parses locationPhrase.rule fun _ => True :=
    Phrase.Yields.andThen parses_name fun n _ => by
      split
      · exact Rule.yields_pure trivial
      · exact Rule.yields_refuse
  have hlocations : Parses locationsRule fun _ => True :=
    Rule.yields_peek.bind fun t _ => by
      split
      · exact (parses_marked _ hlocation).imp fun _ _ => trivial
      · exact (parses_marked _ hlocation).imp fun _ _ => trivial
      · exact Rule.yields_pure trivial
  exact (parses_expect _).bind fun _ _ => parses_name.bind fun _ hn =>
    (parses_arguments depth).bind fun _ hargs => (parses_accept _).bind fun _ _ =>
      (parses_expect _).bind fun _ _ => hlocations.bind fun _ _ => Rule.yields_pure ⟨hn, hargs⟩

/-- **A definition that is parsed fits.** -/
theorem parses_definition : Parses (definitionPhrase depth).rule (Definition.Fits depth) := by
  have hdescribed : ∀ description word,
      Parses (describedRest depth description word) (Definition.Fits depth) := by
    intro description word
    unfold describedRest
    split_ifs
    · exact (parses_directiveRest depth description).map fun _ hd => hd
    · exact (parses_typeRest depth description word).map fun _ hd => hd
  have hextension : Parses (extensionRest depth) (TypeDefinition.Fits WrittenField.Fits depth) :=
    parses_name.bind fun word _ => (parses_typeRest depth none word).bind fun d hd => by
      split_ifs
      · exact Rule.yields_pure hd
      · exact Rule.yields_refuse
  refine Phrase.yields_next fun t _ => ?_
  split
  · exact parses_name.bind fun word _ => hdescribed _ word
  · split_ifs
    · exact (parses_schema depth).map fun _ hblock => hblock
    · exact hextension.map fun _ he => he
    · exact hdescribed none _
  · exact Rule.yields_refuse

end Definitions

/-- **The definitions of a text fit.** -/
theorem fits_of_ofText? {text : String} {document : Document}
    (h : Document.ofText? text = some document) : ∀ d ∈ document, d.Fits maxDepth := by
  obtain ⟨ts, hts, hparse⟩ := Option.bind_eq_some_iff.1 h
  obtain ⟨⟨ds, rest⟩, hrun, rfl⟩ := Option.map_eq_some_iff.1 hparse
  have hdocument : Parses documentRule fun ds => ∀ d ∈ ds, d.Fits maxDepth :=
    Rule.yields_manyOne (parses_definition maxDepth)
  exact (hdocument ts ds rest (isWellFormed_of_ofText? hts) hrun).1

end SemanticNullability.Sdl
