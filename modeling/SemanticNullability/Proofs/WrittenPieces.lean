import SemanticNullability.Proofs.Fits
import SemanticNullability.Sdl.Definition
/-!
# What is written lexes

Whatever fits is written as pieces that lex: every name, number and text is followed by a mark or a
gap. The lemmas follow the writer: one for each kind of phrase, each from those of its parts.
-/
namespace SemanticNullability.Sdl

open Piece

/-! ## Rows of pieces -/

section Rows

variable {ps : List Piece}

theorem Lexes.name {n : String} (hn : IsName n) (h : Lexes ps) (hs : Separated ps) :
    Lexes (.name n :: ps) := (lexes_name hn).append h hs

theorem Lexes.text (level : Nat) (s : String) (h : Lexes ps) (hs : Separated ps) :
    Lexes (.text level s :: ps) := (lexes_text level s).append h hs

theorem Lexes.space (h : Lexes ps) : Lexes (.space :: ps) := h.gap (by decide)

theorem Lexes.line (h : Lexes ps) : Lexes (.line :: ps) := h.gap (by decide)

theorem Lexes.indent (level : Nat) (h : Lexes ps) : Lexes (.indent level :: ps) :=
  h.gap (List.all_eq_true.2 fun c hc => by rw [List.eq_of_mem_replicate hc]; rfl)

theorem separated_space (ps : List Piece) : Separated (.space :: ps) := separated_cons rfl ps

theorem separated_line (ps : List Piece) : Separated (.line :: ps) := separated_cons rfl ps

theorem separated_mark (m : Mark) (ps : List Piece) : Separated (.mark m :: ps) :=
  separated_cons rfl ps

/-- Members with pieces between each two, of which the first ends a token. -/
theorem lexes_separated {p : Piece} {separator : List Piece} {members : List (List Piece)}
    (hbreak : p.isBreak = true) (hseparator : ∀ ps, Lexes ps → Lexes (p :: separator ++ ps))
    (h : ∀ m ∈ members, Lexes m) : Lexes (Piece.separated (p :: separator) members) := by
  rw [Piece.separated]
  induction members with
  | nil => exact lexes_nil
  | cons m members ih =>
    have hrest := ih fun n hn => h n (List.mem_cons_of_mem m hn)
    cases members with
    | nil =>
      rw [List.intercalate_singleton]
      exact h m List.mem_cons_self
    | cons n members =>
      rw [List.intercalate_cons_cons, List.append_assoc]
      exact (h m List.mem_cons_self).append (hseparator _ hrest) (separated_cons hbreak _)

theorem lexes_flatten {members : List (List Piece)} (h : ∀ m ∈ members, Lexes m)
    (hs : ∀ m ∈ members, Separated m) : Lexes members.flatten ∧ Separated members.flatten := by
  induction members with
  | nil => exact ⟨lexes_nil, separated_nil⟩
  | cons m members ih =>
    obtain ⟨hrest, hrests⟩ := ih (fun n hn => h n (List.mem_cons_of_mem m hn))
      fun n hn => hs n (List.mem_cons_of_mem m hn)
    rw [List.flatten_cons]
    exact ⟨(h m List.mem_cons_self).append hrest hrests, (hs m List.mem_cons_self).append hrests⟩

theorem lexes_commas {members : List (List Piece)} (h : ∀ m ∈ members, Lexes m) :
    Lexes (Piece.separated [.comma] members) :=
  lexes_separated (by decide) (fun _ hps => hps.gap (by decide)) h

theorem lexes_grouped (opening closing : Mark) {members : List (List Piece)}
    (h : ∀ m ∈ members, Lexes m) : Lexes (Piece.grouped opening closing members) := by
  rw [Piece.grouped]
  split_ifs
  · exact lexes_nil
  · exact ((lexes_commas h).append (lexes_nil.mark closing) (separated_mark closing [])).mark opening

theorem separated_grouped (opening closing : Mark) (members : List (List Piece)) :
    Separated (Piece.grouped opening closing members) := by
  rw [Piece.grouped]
  split_ifs
  · exact separated_nil
  · exact separated_mark _ _

end Rows

/-! ## Values and types -/

theorem itemPieces_eq (level : Nat) (items : List Value) :
    itemPieces level items = items.map (valuePieces level) := by
  induction items with
  | nil => rfl
  | cons v items ih => rw [itemPieces, ih, List.map_cons]

def onePiece (level : Nat) (e : Entry) : List Piece :=
  .name e.1 :: .mark .colon :: .space :: valuePieces level e.2

theorem entryPieces_eq (level : Nat) (entries : List Entry) :
    entryPieces level entries = entries.map (onePiece level) := by
  induction entries with
  | nil => rfl
  | cons e entries ih => rw [entryPieces, ih, List.map_cons, onePiece]

section Values

variable {level depth : Nat}

theorem lexes_atom {constant : Bool} {v : Value} (hv : v.opensBracket = false)
    (h : v.Fits constant depth) : Lexes (valuePieces level v) := by
  match v, hv with
  | .variable n, _ => exact (lexes_name (Value.fits_variable_iff.1 h).2).mark .dollar
  | .int n, _ => exact lexes_int n
  | .float x, _ => exact lexes_float (Value.fits_float_iff.1 h)
  | .string s, _ => exact lexes_text level s
  | .boolean b, _ => cases b <;> exact lexes_name (by decide)
  | .null, _ => exact lexes_name (by decide)
  | .enum n, _ => exact lexes_name (Value.fits_enum_iff.1 h).1

theorem lexes_value {constant : Bool} (level : Nat) {v : Value} (h : v.Fits constant depth) :
    Lexes (valuePieces level v) := by
  induction depth generalizing v with
  | zero =>
    refine lexes_atom ?_ h
    cases v <;> first | rfl | cases h
  | succ depth ih =>
    match v, h with
    | .list items, h =>
      rw [valuePieces, itemPieces_eq]
      have hitems : ∀ m ∈ items.map (valuePieces level), Lexes m := by
        intro m hm
        obtain ⟨item, hitem, rfl⟩ := List.mem_map.1 hm
        exact ih (h item hitem)
      exact ((lexes_commas hitems).append (lexes_nil.mark .closeBracket)
        (separated_mark .closeBracket [])).mark .openBracket
    | .object entries, h =>
      rw [valuePieces, entryPieces_eq]
      have hentries : ∀ m ∈ entries.map (onePiece level), Lexes m := by
        intro m hm
        obtain ⟨e, he, rfl⟩ := List.mem_map.1 hm
        exact ((ih (h.1 e he).2).space.mark .colon).name (h.1 e he).1 (separated_mark .colon _)
      exact ((lexes_commas hentries).append (lexes_nil.mark .closeBrace)
        (separated_mark .closeBrace [])).mark .openBrace
    | .variable n, h | .int n, h | .float n, h | .string n, h | .boolean n, h | .null, h
    | .enum n, h => exact lexes_atom rfl h

theorem lexes_type {t : WrittenType} (h : t.Fits depth) : Lexes (typePieces t) := by
  induction t generalizing depth with
  | named n => exact lexes_name (by simpa [WrittenType.Fits] using h)
  | list item ih =>
    cases depth with
    | zero => cases h
    | succ depth =>
      exact ((ih h).append (lexes_nil.mark .closeBracket) (separated_mark .closeBracket [])).mark
        .openBracket
  | nonNull inner ih =>
    have hinner : inner.Fits depth := by
      cases depth <;> exact h.2
    exact (ih hinner).append (lexes_nil.mark .bang) (separated_mark .bang [])

theorem separated_directives (level : Nat) (ds : List Directive) :
    Separated (directivesPieces level ds) := by
  cases ds with
  | nil => exact separated_nil
  | cons d ds => exact separated_space _

theorem lexes_directives (level : Nat) {ds : List Directive} (h : DirectivesFit depth ds) :
    Lexes (directivesPieces level ds) := by
  induction ds with
  | nil => exact lexes_nil
  | cons d ds ih =>
    obtain ⟨hname, hargs⟩ := h d List.mem_cons_self
    have hgroup : Lexes (Piece.grouped .openParen .closeParen (entryPieces level d.arguments)) := by
      rw [entryPieces_eq]
      refine lexes_grouped _ _ fun m hm => ?_
      obtain ⟨e, he, rfl⟩ := List.mem_map.1 hm
      obtain ⟨inner, hename, hevalue⟩ := GroupFits.exists_depth hargs he
      exact ((lexes_value level hevalue).space.mark .colon).name hename (separated_mark .colon _)
    have hone : Lexes (directivePieces level d) :=
      ((hgroup.name hname (separated_grouped _ _ _)).mark .atSign).space
    exact hone.append (ih fun x hx => h x (List.mem_cons_of_mem d hx)) (separated_directives level ds)

theorem Lexes.inlineDescription {ps : List Piece} (level : Nat) (description : Option String)
    (h : Lexes ps) :
    Lexes (inlineDescription level description ++ ps) := by
  cases description with
  | none => exact h
  | some s => exact h.space.text level s (separated_space ps)

theorem Lexes.lineDescription {ps : List Piece} (level : Nat) (description : Option String)
    (h : Lexes ps) :
    Lexes (lineDescription level description ++ ps) := by
  cases description with
  | none => exact h
  | some s => exact (h.line.text level s (separated_line ps)).indent level

theorem lexes_inputValue (level : Nat) {v : InputValue} (h : v.Fits depth) :
    Lexes (inputValuePieces level v) := by
  have hdirectives := lexes_directives level h.directives
  have hnamed : ∀ behind, Lexes behind → Separated behind →
      Lexes (.name v.name :: .mark .colon :: .space :: (typePieces v.type ++ behind)) := by
    intro behind hlexes hseparated
    have htype := (lexes_type h.type).append hlexes hseparated
    exact (htype.space.mark .colon).name h.name (separated_mark .colon _)
  rw [inputValuePieces, List.append_assoc, List.append_assoc]
  refine Lexes.inlineDescription level v.description (hnamed _ ?_ ?_) <;>
    cases hvalue : v.defaultValue
  case refine_1.none => exact hdirectives
  case refine_1.some value =>
    have hv := lexes_value level (h.defaultValue value hvalue)
    exact ((hv.append hdirectives (separated_directives level _)).space.mark .equals).space
  case refine_2.none => exact separated_directives level _
  case refine_2.some value => exact separated_space _

theorem lexes_arguments (level : Nat) {vs : List InputValue} (h : GroupFits InputValue.Fits depth vs) :
    Lexes (argumentsPieces level vs) := by
  refine lexes_grouped _ _ fun m hm => ?_
  obtain ⟨v, hv, rfl⟩ := List.mem_map.1 hm
  obtain ⟨inner, hfits⟩ := GroupFits.exists_depth h hv
  exact lexes_inputValue level hfits

theorem lexes_field {f : WrittenField} (h : f.Fits depth) : Lexes (fieldPieces level f) := by
  have hline : Lexes (directivesPieces level f.directives ++ [.line]) :=
    (lexes_directives level h.directives).append lexes_nil.line (separated_line [])
  have hseparated : Separated (directivesPieces level f.directives ++ [.line]) :=
    (separated_directives level _).append (separated_line [])
  have htype := ((lexes_type h.type).append hline hseparated).space.mark .colon
  have hargs := (lexes_arguments level h.arguments).append htype (separated_mark .colon _)
  have hsep : Separated (argumentsPieces level f.arguments ++ (.mark .colon :: .space ::
      (typePieces f.type ++ (directivesPieces level f.directives ++ [.line])))) :=
    (separated_grouped _ _ _).append (separated_mark .colon _)
  have hfield := (hargs.name h.name hsep).indent level
  have hwhole := Lexes.lineDescription level f.description hfield
  simpa only [fieldPieces, List.append_assoc, List.cons_append] using hwhole

theorem lexes_enumValue {v : EnumValue} (h : v.Fits depth) : Lexes (enumValuePieces level v) := by
  have hline : Lexes (directivesPieces level v.directives ++ [.line]) :=
    (lexes_directives level h.directives).append lexes_nil.line (separated_line [])
  have hseparated : Separated (directivesPieces level v.directives ++ [.line]) :=
    (separated_directives level _).append (separated_line [])
  have hvalue := (Lexes.inlineDescription level v.description
    (hline.name h.name hseparated)).indent level
  simpa only [enumValuePieces, List.append_assoc, List.cons_append] using hvalue

theorem lexes_inputField {v : InputValue} (h : v.Fits depth) : Lexes (inputFieldPieces level v) :=
  ((lexes_inputValue level h).append lexes_nil.line (separated_line [])).indent level

end Values

/-! ## Bodies and lists of names -/

section Bodies

variable {depth : Nat}

theorem lexes_body {members : List (List Piece)} (h : ∀ m ∈ members, Lexes m)
    (hs : ∀ m ∈ members, Separated m) : Lexes (bodyPieces members) ∧ Separated (bodyPieces members) := by
  rw [bodyPieces]
  split_ifs
  · exact ⟨lexes_nil, separated_nil⟩
  · have hmembers := (lexes_flatten h hs).1.append (lexes_nil.mark .closeBrace)
      (separated_mark .closeBrace [])
    exact ⟨(hmembers.line.mark .openBrace).space, separated_space _⟩

/-- Members of a body stand on lines of their own, behind their indentation. -/
theorem lexes_body_map {α : Type} {fits : Nat → α → Prop} (pieces : α → List Piece) {xs : List α}
    (h : GroupFits fits depth xs) (hlex : ∀ inner x, fits inner x → Lexes (pieces x))
    (hs : ∀ x, Separated (pieces x)) :
    Lexes (bodyPieces (xs.map pieces)) ∧ Separated (bodyPieces (xs.map pieces)) := by
  refine lexes_body (fun m hm => ?_) fun m hm => ?_
  · obtain ⟨x, hx, rfl⟩ := List.mem_map.1 hm
    obtain ⟨inner, hfits⟩ := GroupFits.exists_depth h hx
    exact hlex inner x hfits
  · obtain ⟨x, _, rfl⟩ := List.mem_map.1 hm
    exact hs x

theorem separated_field (f : WrittenField) : Separated (fieldPieces 1 f) := by
  cases hd : f.description <;> rw [fieldPieces, hd] <;> exact separated_cons rfl _

theorem separated_enumValue (v : EnumValue) : Separated (enumValuePieces 1 v) :=
  separated_cons rfl _

theorem separated_inputField (v : InputValue) : Separated (inputFieldPieces 1 v) :=
  separated_cons rfl _

theorem lexes_marked (m : Mark) {names : List String} (h : ∀ n ∈ names, IsName n) :
    Lexes (markedPieces m names) := by
  refine lexes_separated (by decide) (fun ps hps => (hps.space.mark m).space) fun ps hps => ?_
  obtain ⟨n, hn, rfl⟩ := List.mem_map.1 hps
  exact lexes_name (h n hn)

theorem lexes_interfaces {names : List String} (h : ∀ n ∈ names, IsName n) :
    Lexes (interfacesPieces names) ∧ Separated (interfacesPieces names) := by
  rw [interfacesPieces]
  split_ifs
  · exact ⟨lexes_nil, separated_nil⟩
  · exact ⟨((lexes_marked .ampersand h).space.name (by decide) (separated_space _)).space,
      separated_space _⟩

end Bodies

/-! ## Definitions -/

section Definitions

variable {depth : Nat}

/-- A word, a name and what follows them. -/
theorem lexes_word {word n : String} {ps : List Piece} (hword : IsName word) (hn : IsName n)
    (h : Lexes ps) (hs : Separated ps) : Lexes (.name word :: .space :: .name n :: ps) :=
  (h.name hn hs).space.name hword (separated_space _)

theorem lexes_fielded {word : String} {t : FieldedType WrittenField} (hword : IsName word)
    (hname : IsName t.name) (hinterfaces : ∀ n ∈ t.interfaces, IsName n)
    (hdirectives : DirectivesFit depth t.directives)
    (hfields : GroupFits WrittenField.Fits depth t.fields) : Lexes (fieldedPieces word t) := by
  have hbody := lexes_body_map (fieldPieces 1) hfields (fun _ _ => lexes_field)
    separated_field
  have hdirs := (lexes_directives 0 hdirectives).append hbody.1 hbody.2
  have hdirsSep := (separated_directives 0 t.directives).append hbody.2
  have hinter := lexes_interfaces hinterfaces
  have hwhole := lexes_word hword hname (hinter.1.append hdirs hdirsSep) (hinter.2.append hdirsSep)
  simpa only [fieldedPieces, List.append_assoc, List.cons_append] using hwhole

/-- A definition whose directives are followed by its own part. -/
theorem lexes_defined {word n : String} {ds : List Directive} {ps : List Piece} (hword : IsName word)
    (hn : IsName n) (hds : DirectivesFit depth ds) (h : Lexes ps) (hs : Separated ps) :
    Lexes (.name word :: .space :: .name n :: directivesPieces 0 ds ++ ps) :=
  lexes_word hword hn ((lexes_directives 0 hds).append h hs) ((separated_directives 0 ds).append hs)

theorem lexes_typeBody {d : TypeDefinition WrittenField} (h : d.Fits WrittenField.Fits depth) :
    Lexes (typeBodyPieces d) := by
  cases d with
  | object t => exact lexes_fielded (by decide) h.name h.interfaces h.directives h.fields
  | interface t => exact lexes_fielded (by decide) h.name h.interfaces h.directives h.fields
  | union t =>
    refine lexes_defined (by decide) h.name h.directives ?_ ?_
    · split_ifs
      · exact lexes_nil
      · exact ((lexes_marked .pipe h.members).space.mark .equals).space
    · split_ifs
      · exact separated_nil
      · exact separated_space _
  | scalar t =>
    have hscalar := lexes_defined (show IsName "scalar" by decide) h.name h.directives lexes_nil
      separated_nil
    rwa [List.append_nil] at hscalar
  | enum t =>
    have hbody := lexes_body_map (enumValuePieces 1) h.values (fun _ _ => lexes_enumValue)
      separated_enumValue
    exact lexes_defined (by decide) h.name h.directives hbody.1 hbody.2
  | inputObject t =>
    have hbody := lexes_body_map (inputFieldPieces 1) h.inputFields
      (fun _ _ => lexes_inputField) separated_inputField
    exact lexes_defined (by decide) h.name h.directives hbody.1 hbody.2

theorem isName_locationText (l : DirectiveLocation) : IsName l.text := by cases l <;> decide

theorem lexes_directiveDefinition {d : DirectiveDefinition} (h : d.Fits depth) :
    Lexes (directiveDefinitionPieces d) := by
  have hlocations : Lexes (if d.locations.isEmpty then [] else .space :: .name "on" :: .space ::
      markedPieces .pipe (d.locations.map (·.text))) ∧
      Separated (if d.locations.isEmpty then [] else .space :: .name "on" :: .space ::
      markedPieces .pipe (d.locations.map (·.text))) := by
    split_ifs
    · exact ⟨lexes_nil, separated_nil⟩
    · have hnames : ∀ n ∈ d.locations.map (·.text), IsName n := by
        intro n hn
        obtain ⟨l, _, rfl⟩ := List.mem_map.1 hn
        exact isName_locationText l
      exact ⟨((lexes_marked .pipe hnames).space.name (by decide) (separated_space _)).space,
        separated_space _⟩
  have hrepeatable : Lexes (if d.repeatable then [.space, .name "repeatable"] else []) ∧
      Separated (if d.repeatable then [.space, .name "repeatable"] else []) := by
    split_ifs
    · exact ⟨(lexes_name (by decide)).space, separated_space _⟩
    · exact ⟨lexes_nil, separated_nil⟩
  have hend := hrepeatable.1.append hlocations.1 hlocations.2
  have hendSep := hrepeatable.2.append hlocations.2
  have hargs := (lexes_arguments 0 h.arguments).append hend hendSep
  have hargsSep : Separated (argumentsPieces 0 d.arguments ++ _) :=
    (separated_grouped _ _ _).append hendSep
  have hwhole := (((hargs.name h.name hargsSep).mark .atSign).space).name
    (show IsName "directive" by decide) (separated_space _)
  simpa only [directiveDefinitionPieces, List.append_assoc, List.cons_append] using hwhole

theorem isName_operationText (op : Operation) : IsName op.text := by cases op <;> decide

theorem lexes_schema {block : SchemaBlock} (h : block.Fits depth) : Lexes (schemaPieces block) := by
  have hroots : ∀ roots : List (Operation × String), (∀ r ∈ roots, IsName r.2) →
      Lexes (roots.flatMap (fun r =>
        [.indent 1, .name r.1.text, .mark .colon, .space, .name r.2, .line]) ++
          [.mark .closeBrace]) := by
    intro roots hnames
    induction roots with
    | nil => exact lexes_nil.mark .closeBrace
    | cons r roots ih =>
      have hrest := ih fun x hx => hnames x (List.mem_cons_of_mem r hx)
      exact (((hrest.line.name (hnames r List.mem_cons_self) (separated_line _)).space.mark
        .colon).name (isName_operationText r.1) (separated_mark .colon _)).indent 1
  have hnames : ∀ r ∈ block.roots.toList, IsName r.2 := by
    rintro ⟨op, n⟩ hr
    exact h.roots op n (Roots.mem_toList.1 hr)
  have hbrace := ((hroots block.roots.toList hnames).line.mark .openBrace).space
  have hwhole := ((lexes_directives 0 h.directives).append hbrace (separated_space _)).name
    (show IsName "schema" by decide) ((separated_directives 0 _).append (separated_space _))
  simpa only [schemaPieces, List.append_assoc, List.cons_append] using hwhole

theorem lexes_definition {d : Definition} (h : d.Fits depth) : Lexes (definitionPieces d) := by
  have hline : ∀ ps, Lexes ps → Lexes (ps ++ [.line]) :=
    fun ps hps => hps.append lexes_nil.line (separated_line [])
  cases d with
  | schema block => exact hline _ (lexes_schema h)
  | type d =>
    rw [definitionPieces, List.append_assoc]
    exact Lexes.lineDescription 0 _ (hline _ (lexes_typeBody h))
  | directive d =>
    rw [definitionPieces, List.append_assoc]
    exact Lexes.lineDescription 0 _ (hline _ (lexes_directiveDefinition h))
  | extend d =>
    exact ((hline _ (lexes_typeBody h)).space).name (by decide) (separated_space _)

/-- **What is written lexes.** -/
theorem lexes_document {document : Document} (h : ∀ d ∈ document, d.Fits depth) :
    Lexes (documentPieces document) := by
  refine lexes_separated rfl (fun ps hps => hps.line) fun m hm => ?_
  obtain ⟨d, hd, rfl⟩ := List.mem_map.1 hm
  exact lexes_definition (h d hd)

end Definitions

end SemanticNullability.Sdl
