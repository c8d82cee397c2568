import SemanticNullability.Proofs.DefinitionParsing
import SemanticNullability.Proofs.Printable
/-!
# What comes back of a schema

Texts and floating-point values are all that a reader may make something else of. `Schema.returned`
replaces each of them by what is read of it and leaves everything else: names, types, integers, and the
order and number of definitions, fields, arguments and values. Writing commutes with this: the pieces
of what comes back are what comes back of the pieces.
-/
namespace SemanticNullability

/-! ## What comes back -/

def returnedText (s : String) : String := String.ofList (Sdl.rereadText s.toList)

/-- The value that comes back of a floating-point value: an integer if it is whole, and infinity is
read as an enum value. -/
def returnedFloat (x : Binary64) : Value :=
  match Sdl.readFloat? x with
  | some (.int n) => .int n
  | some (.float y) => .float y
  | some (.name n) => .enum n
  | _ => .float x

mutual

def Value.returned : Value → Value
  | .float x => returnedFloat x
  | .string s => .string (returnedText s)
  | .list items => .list (returnedItems items)
  | .object entries => .object (returnedEntries entries)
  | v => v

def returnedItems : List Value → List Value
  | [] => []
  | v :: rest => v.returned :: returnedItems rest

def returnedEntries : List Entry → List Entry
  | [] => []
  | (key, v) :: rest => (key, v.returned) :: returnedEntries rest

end

def Entry.returned (e : Entry) : Entry := (e.1, e.2.returned)

theorem returnedItems_eq (items : List Value) : returnedItems items = items.map Value.returned := by
  induction items with
  | nil => rfl
  | cons v items ih => rw [returnedItems, ih, List.map_cons]

theorem returnedEntries_eq (entries : List Entry) :
    returnedEntries entries = entries.map Entry.returned := by
  induction entries with
  | nil => rfl
  | cons e entries ih => rw [returnedEntries, ih, List.map_cons, Entry.returned]

def Directive.returned (d : Directive) : Directive := ⟨d.name, d.arguments.map Entry.returned⟩

def InputValue.returned (v : InputValue) : InputValue where
  name := v.name
  description := v.description.map returnedText
  type := v.type
  defaultValue := v.defaultValue.map Value.returned
  directives := v.directives.map Directive.returned

def WrittenField.returned (f : WrittenField) : WrittenField where
  name := f.name
  description := f.description.map returnedText
  arguments := f.arguments.map InputValue.returned
  type := f.type
  directives := f.directives.map Directive.returned

/-- The field that comes back, read. -/
def Field.returned (f : Field) : Field where
  name := f.name
  description := f.description.map returnedText
  arguments := f.arguments.map InputValue.returned
  type := f.type
  directives := f.directives.map Directive.returned
  semantic := f.semantic

def EnumValue.returned (v : EnumValue) : EnumValue :=
  ⟨v.name, v.description.map returnedText, v.directives.map Directive.returned⟩

/-- The definition that comes back; `field` says so of its output fields. -/
def TypeDefinition.returned {φ : Type} (field : φ → φ) : TypeDefinition φ → TypeDefinition φ
  | object t => object ⟨t.name, t.description.map returnedText, t.interfaces,
      t.directives.map Directive.returned, t.fields.map field⟩
  | interface t => interface ⟨t.name, t.description.map returnedText, t.interfaces,
      t.directives.map Directive.returned, t.fields.map field⟩
  | union t => union ⟨t.name, t.description.map returnedText, t.directives.map Directive.returned,
      t.members⟩
  | scalar t => scalar ⟨t.name, t.description.map returnedText,
      t.directives.map Directive.returned⟩
  | enum t => enum ⟨t.name, t.description.map returnedText, t.directives.map Directive.returned,
      t.values.map EnumValue.returned⟩
  | inputObject t => inputObject ⟨t.name, t.description.map returnedText,
      t.directives.map Directive.returned, t.fields.map InputValue.returned⟩

def DirectiveDefinition.returned (d : DirectiveDefinition) : DirectiveDefinition :=
  ⟨d.name, d.description.map returnedText, d.arguments.map InputValue.returned, d.repeatable,
    d.locations⟩

def SchemaBlock.returned (block : SchemaBlock) : SchemaBlock :=
  ⟨block.directives.map Directive.returned, block.roots⟩

def Definition.returned : Definition → Definition
  | .schema block => .schema block.returned
  | .type d => .type (d.returned WrittenField.returned)
  | .directive d => .directive d.returned
  | .extend d => .extend (d.returned WrittenField.returned)

/-- The schema that comes back. -/
def Schema.returned (s : Schema) : Schema where
  roots := s.roots
  directives := s.directives.map Directive.returned
  types := s.types.map (TypeDefinition.returned Field.returned)
  directiveDefinitions := s.directiveDefinitions.map DirectiveDefinition.returned

end SemanticNullability

namespace SemanticNullability.Sdl

/-! ## Pieces of what comes back -/

section Rows

open Piece

@[simp] theorem returned_mark (m : Mark) : (mark m).returned = mark m := rfl

@[simp] theorem returned_name (n : String) : (name n).returned = name n := rfl

@[simp] theorem returned_space : space.returned = space := rfl

@[simp] theorem returned_line : line.returned = line := rfl

@[simp] theorem returned_comma : comma.returned = comma := rfl

@[simp] theorem returned_indent (level : Nat) : (indent level).returned = indent level := rfl

/-- Separators come back as they were. -/
theorem map_separated {separator : List Piece} (h : separator.map returned = separator)
    (members : List (List Piece)) :
    (separated separator members).map returned =
      separated separator (members.map (List.map returned)) := by
  rw [separated, separated]
  induction members with
  | nil => rfl
  | cons m members ih =>
    cases members with
    | nil => rw [List.map_singleton, List.intercalate_singleton, List.intercalate_singleton]
    | cons n members =>
      rw [List.intercalate_cons_cons, List.map_append, List.map_append, ih, h]
      exact List.intercalate_cons_cons.symm

@[simp] theorem map_grouped (opening closing : Mark) (members : List (List Piece)) :
    (grouped opening closing members).map returned =
      grouped opening closing (members.map (List.map returned)) := by
  cases members with
  | nil => rfl
  | cons m members => simp [grouped, map_separated]

@[simp] theorem map_body (members : List (List Piece)) :
    (bodyPieces members).map returned = bodyPieces (members.map (List.map returned)) := by
  cases members with
  | nil => rfl
  | cons m members => simp [bodyPieces, List.map_flatten]

@[simp] theorem map_marked (m : Mark) (names : List String) :
    (markedPieces m names).map returned = markedPieces m names := by
  rw [markedPieces, map_separated rfl, List.map_map]
  rfl

end Rows

section Values

variable (level : Nat)

theorem pieces_returnedFloat (x : Binary64) :
    valuePieces level (returnedFloat x) = [(Piece.float x).returned] := by
  rw [returnedFloat, Piece.returned]
  cases readFloat? x with
  | none => rfl
  | some t => cases t <;> rfl

mutual

theorem pieces_value : ∀ v : Value,
    valuePieces level v.returned = (valuePieces level v).map Piece.returned
  | .variable n => rfl
  | .int n => rfl
  | .float x => pieces_returnedFloat level x
  | .string s => rfl
  | .boolean b => by cases b <;> rfl
  | .null => rfl
  | .enum n => rfl
  | .list items => by
    rw [Value.returned, valuePieces, valuePieces, pieces_items items]
    simp [map_separated]
  | .object entries => by
    rw [Value.returned, valuePieces, valuePieces, pieces_entries entries]
    simp [map_separated]

theorem pieces_items : ∀ items : List Value,
    itemPieces level (returnedItems items) = (itemPieces level items).map (List.map Piece.returned)
  | [] => rfl
  | v :: rest => by
    rw [returnedItems, itemPieces, itemPieces, List.map_cons, pieces_value v, pieces_items rest]

theorem pieces_entries : ∀ entries : List Entry,
    entryPieces level (returnedEntries entries) =
      (entryPieces level entries).map (List.map Piece.returned)
  | [] => rfl
  | (key, v) :: rest => by
    rw [returnedEntries, entryPieces, entryPieces, pieces_value v, pieces_entries rest]
    rfl

end

theorem pieces_type (t : WrittenType) : (typePieces t).map Piece.returned = typePieces t := by
  induction t with
  | named n => rfl
  | list item ih => simp [typePieces, ih]
  | nonNull inner ih => simp [typePieces, ih]

theorem pieces_directive (d : Directive) :
    directivePieces level d.returned = (directivePieces level d).map Piece.returned := by
  rw [directivePieces, directivePieces, Directive.returned, ← returnedEntries_eq, pieces_entries]
  simp

theorem pieces_directives (ds : List Directive) :
    directivesPieces level (ds.map Directive.returned) =
      (directivesPieces level ds).map Piece.returned := by
  rw [directivesPieces, directivesPieces, List.flatMap_map, List.map_flatMap]
  exact List.flatMap_congr fun d _ => pieces_directive level d

theorem pieces_inlineDescription (description : Option String) :
    inlineDescription level (description.map returnedText) =
      (inlineDescription level description).map Piece.returned := by
  cases description <;> rfl

theorem pieces_lineDescription (description : Option String) :
    lineDescription level (description.map returnedText) =
      (lineDescription level description).map Piece.returned := by
  cases description <;> rfl

theorem pieces_inputValue (v : InputValue) :
    inputValuePieces level v.returned = (inputValuePieces level v).map Piece.returned := by
  obtain ⟨name, description, type, defaultValue, directives⟩ := v
  cases defaultValue <;>
    simp only [inputValuePieces, InputValue.returned, Option.map_none, Option.map_some, pieces_value,
      pieces_inlineDescription, pieces_directives, List.map_append, List.map_cons, List.map_nil,
      pieces_type, returned_name, returned_mark, returned_space]

theorem pieces_arguments (vs : List InputValue) :
    argumentsPieces level (vs.map InputValue.returned) =
      (argumentsPieces level vs).map Piece.returned := by
  rw [argumentsPieces, argumentsPieces, map_grouped, List.map_map, List.map_map]
  exact congrArg _ (List.map_congr_left fun v _ => pieces_inputValue level v)

theorem pieces_field (f : WrittenField) :
    fieldPieces level f.returned = (fieldPieces level f).map Piece.returned := by
  simp only [fieldPieces, WrittenField.returned, pieces_lineDescription, pieces_arguments,
    pieces_directives, List.map_append, List.map_cons, List.map_nil, pieces_type, returned_name,
    returned_mark, returned_space, returned_indent, returned_line]

theorem pieces_enumValue (v : EnumValue) :
    enumValuePieces level v.returned = (enumValuePieces level v).map Piece.returned := by
  simp only [enumValuePieces, EnumValue.returned, pieces_inlineDescription, pieces_directives,
    List.map_append, List.map_cons, List.map_nil, returned_name, returned_indent, returned_line]

theorem pieces_inputField (v : InputValue) :
    inputFieldPieces level v.returned = (inputFieldPieces level v).map Piece.returned := by
  simp only [inputFieldPieces, pieces_inputValue, List.map_append, List.map_cons, List.map_nil,
    returned_indent, returned_line]

end Values

/-! ## Definitions -/

section Definitions

/-- The members of a body come back one by one. -/
theorem pieces_body {α : Type} {pieces : α → List Piece} {back : α → α} (xs : List α)
    (h : ∀ x, pieces (back x) = (pieces x).map Piece.returned) :
    bodyPieces ((xs.map back).map pieces) = (bodyPieces (xs.map pieces)).map Piece.returned := by
  rw [map_body, List.map_map, List.map_map]
  exact congrArg _ (List.map_congr_left fun x _ => h x)

theorem pieces_interfaces (names : List String) :
    (interfacesPieces names).map Piece.returned = interfacesPieces names := by
  rw [interfacesPieces]
  split_ifs
  · rfl
  · simp

theorem pieces_typeBody (d : TypeDefinition WrittenField) :
    typeBodyPieces (d.returned WrittenField.returned) = (typeBodyPieces d).map Piece.returned := by
  have hfielded : ∀ (word : String) (t : FieldedType WrittenField),
      fieldedPieces word ⟨t.name, t.description.map returnedText, t.interfaces,
        t.directives.map Directive.returned, t.fields.map WrittenField.returned⟩ =
          (fieldedPieces word t).map Piece.returned := by
    intro word t
    simp only [fieldedPieces, pieces_directives, pieces_body t.fields (pieces_field 1),
      List.map_append, List.map_cons, pieces_interfaces, returned_name, returned_space]
  cases d with
  | object t => exact hfielded "type" t
  | interface t => exact hfielded "interface" t
  | union t =>
    have hmembers : (if t.members.isEmpty then [] else
        .space :: .mark .equals :: .space :: markedPieces .pipe t.members).map Piece.returned =
          if t.members.isEmpty then [] else
            .space :: .mark .equals :: .space :: markedPieces .pipe t.members := by
      split_ifs
      · rfl
      · simp
    simp only [TypeDefinition.returned, typeBodyPieces, unionPieces, pieces_directives,
      List.map_append, List.map_cons, hmembers, returned_name, returned_space]
  | scalar t =>
    simp only [TypeDefinition.returned, typeBodyPieces, scalarPieces, pieces_directives,
      List.map_cons, returned_name, returned_space]
  | enum t =>
    simp only [TypeDefinition.returned, typeBodyPieces, enumPieces, pieces_directives,
      pieces_body t.values (pieces_enumValue 1), List.map_append, List.map_cons, returned_name,
      returned_space]
  | inputObject t =>
    simp only [TypeDefinition.returned, typeBodyPieces, inputObjectPieces, pieces_directives,
      pieces_body t.fields (pieces_inputField 1), List.map_append, List.map_cons, returned_name,
      returned_space]

theorem typeDescription_returned {φ : Type} (field : φ → φ) (d : TypeDefinition φ) :
    typeDescription (d.returned field) = (typeDescription d).map returnedText := by
  cases d <;> rfl

theorem pieces_directiveDefinition (d : DirectiveDefinition) :
    directiveDefinitionPieces d.returned = (directiveDefinitionPieces d).map Piece.returned := by
  have hlocations : (if d.locations.isEmpty then [] else
      .space :: .name "on" :: .space :: markedPieces .pipe (d.locations.map (·.text))).map
        Piece.returned = if d.locations.isEmpty then [] else
          .space :: .name "on" :: .space :: markedPieces .pipe (d.locations.map (·.text)) := by
    split_ifs
    · rfl
    · simp
  have hrepeatable : (if d.repeatable then [.space, .name "repeatable"] else []).map
      Piece.returned = if d.repeatable then [.space, .name "repeatable"] else [] := by
    split_ifs <;> rfl
  simp only [directiveDefinitionPieces, DirectiveDefinition.returned, pieces_arguments,
    List.map_append, List.map_cons, hlocations, hrepeatable, returned_name, returned_mark,
    returned_space]
  rfl

theorem pieces_schema (block : SchemaBlock) :
    schemaPieces block.returned = (schemaPieces block).map Piece.returned := by
  simp [schemaPieces, SchemaBlock.returned, pieces_directives, List.map_flatMap]

theorem pieces_definition (d : Definition) :
    definitionPieces d.returned = (definitionPieces d).map Piece.returned := by
  cases d with
  | schema block =>
    simp only [Definition.returned, definitionPieces, pieces_schema, List.map_append, List.map_cons,
      List.map_nil, returned_line]
  | type d =>
    simp only [Definition.returned, definitionPieces, typeDescription_returned,
      pieces_lineDescription, pieces_typeBody, List.map_append, List.map_cons, List.map_nil,
      returned_line]
  | directive d =>
    have hdescription : d.returned.description = d.description.map returnedText := rfl
    simp only [Definition.returned, definitionPieces, hdescription, pieces_lineDescription,
      pieces_directiveDefinition, List.map_append, List.map_cons, List.map_nil, returned_line]
  | extend d =>
    simp only [Definition.returned, definitionPieces, pieces_typeBody, List.map_append,
      List.map_cons, List.map_nil, returned_name, returned_space, returned_line]

/-- **Writing what comes back.** -/
theorem pieces_document (document : Document) :
    documentPieces (document.map Definition.returned) =
      (documentPieces document).map Piece.returned := by
  rw [documentPieces, documentPieces, map_separated rfl, List.map_map, List.map_map]
  exact congrArg _ (List.map_congr_left fun d _ => pieces_definition d)

end Definitions

end SemanticNullability.Sdl

namespace SemanticNullability

/-! ## What comes back fits -/

section Fits

open Sdl

variable {depth : Nat}

theorem fits_returnedFloat {constant : Bool} {x : Binary64} (h : x.IsCanonical) :
    (returnedFloat x).Fits constant depth := by
  rw [returnedFloat]
  cases hread : readFloat? x with
  | none => exact Value.fits_float_iff.2 h
  | some t =>
    have ht : t.IsWellFormed := by
      unfold readFloat? at hread
      split at hread
      · cases hread
        exact (show IsName "inf" by decide)
      · obtain ⟨n, hn, rfl⟩ := Option.map_eq_some_iff.1 hread
        exact isWellFormed_of_number? hn
    rcases Piece.readFloat?_cases hread with ⟨n, rfl⟩ | ⟨y, rfl⟩ | rfl
    · cases depth <;> trivial
    · exact Value.fits_float_iff.2 ht
    · exact Value.fits_enum_iff.2 (by decide)

theorem Value.Fits.returned {constant : Bool} {v : Value} (h : v.Fits constant depth) :
    v.returned.Fits constant depth := by
  induction depth generalizing v with
  | zero =>
    match v, h with
    | .float x, h => exact fits_returnedFloat h
    | .string s, _ => trivial
    | .variable n, h | .int n, h | .boolean n, h | .null, h | .enum n, h => exact h
  | succ depth ih =>
    match v, h with
    | .float x, h => exact fits_returnedFloat h
    | .string s, _ => trivial
    | .list items, h =>
      rw [Value.returned, returnedItems_eq]
      intro v hv
      obtain ⟨w, hw, rfl⟩ := List.mem_map.1 hv
      exact ih (h w hw)
    | .object entries, h =>
      rw [Value.returned, returnedEntries_eq]
      refine ⟨fun e he => ?_, ?_⟩
      · obtain ⟨w, hw, rfl⟩ := List.mem_map.1 he
        exact ⟨(h.1 w hw).1, ih (h.1 w hw).2⟩
      · exact List.pairwise_map.2 h.2
    | .variable n, h | .int n, h | .boolean n, h | .null, h | .enum n, h => exact h

theorem Directive.Fits.returned {d : Directive} (h : d.Fits depth) : d.returned.Fits depth where
  name := h.name
  arguments := h.arguments.map fun _ _ _ he => ⟨he.1, he.2.returned⟩

theorem DirectivesFit.returned {ds : List Directive} (h : DirectivesFit depth ds) :
    DirectivesFit depth (ds.map Directive.returned) := by
  intro d hd
  obtain ⟨x, hx, rfl⟩ := List.mem_map.1 hd
  exact (h x hx).returned

theorem InputValue.Fits.returned {v : InputValue} (h : v.Fits depth) : v.returned.Fits depth where
  name := h.name
  type := h.type
  defaultValue w hw := by
    obtain ⟨value, hvalue, rfl⟩ := Option.map_eq_some_iff.1 hw
    exact (h.defaultValue value hvalue).returned
  directives := h.directives.returned

theorem GroupFits.returned {vs : List InputValue} (h : GroupFits InputValue.Fits depth vs) :
    GroupFits InputValue.Fits depth (vs.map InputValue.returned) :=
  h.map fun _ _ _ hv => hv.returned

theorem WrittenField.Fits.returned {f : WrittenField} (h : f.Fits depth) :
    f.returned.Fits depth where
  name := h.name
  arguments := h.arguments.returned
  type := h.type
  directives := h.directives.returned

theorem EnumValue.Fits.returned {v : EnumValue} (h : v.Fits depth) : v.returned.Fits depth where
  name := h.name
  directives := h.directives.returned

theorem TypeDefinition.Fits.returned {d : TypeDefinition WrittenField}
    (h : d.Fits WrittenField.Fits depth) :
    (d.returned WrittenField.returned).Fits WrittenField.Fits depth := by
  have hfields := h.fields.map fun _ _ _ hf => WrittenField.Fits.returned hf
  have hvalues := h.values.map fun _ _ _ hv => EnumValue.Fits.returned hv
  have hdirectives := h.directives.returned
  cases d with
  | object t =>
    exact ⟨h.name, h.interfaces, hdirectives, h.members, hfields, h.values, h.inputFields⟩
  | interface t =>
    exact ⟨h.name, h.interfaces, hdirectives, h.members, hfields, h.values, h.inputFields⟩
  | union t => exact ⟨h.name, h.interfaces, hdirectives, h.members, h.fields, h.values, h.inputFields⟩
  | scalar t =>
    exact ⟨h.name, h.interfaces, hdirectives, h.members, h.fields, h.values, h.inputFields⟩
  | enum t => exact ⟨h.name, h.interfaces, hdirectives, h.members, h.fields, hvalues, h.inputFields⟩
  | inputObject t =>
    exact ⟨h.name, h.interfaces, hdirectives, h.members, h.fields, h.values, h.inputFields.returned⟩

/-- **What comes back of a definition fits.** -/
theorem Definition.Fits.returned {d : Definition} (h : d.Fits depth) : d.returned.Fits depth := by
  cases d with
  | schema block => exact ⟨h.directives.returned, h.roots⟩
  | type d => exact TypeDefinition.Fits.returned h
  | directive d => exact ⟨h.name, h.arguments.returned⟩
  | extend d => exact TypeDefinition.Fits.returned h

end Fits

end SemanticNullability
