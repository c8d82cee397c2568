import SemanticNullability.Document
import SemanticNullability.Sdl.Value
/-!
# Definitions and documents in SDL

How they are read and how they are written. The word that a definition begins with decides what it
defines. An extension is read like the definition of its kind, without a description, and must add
something. Definitions are written with an empty line between each two.
-/
namespace SemanticNullability.Sdl

/-! ## Fields and values of enums -/

def fieldPhrase (depth : Nat) : Phrase Token WrittenField :=
  .after descriptionRule fun description =>
    namePhrase.andThen fun name => do
      let arguments ← argumentsRule depth
      (expect (.mark .colon)).rule
      let type ← (typePhrase depth).rule
      let directives ← directivesRule depth
      return ⟨name, description, arguments, type, directives⟩

/-- Writes a field on lines of its own. -/
def fieldPieces (level : Nat) (f : WrittenField) : List Piece :=
  lineDescription level f.description ++
    .indent level :: .name f.name :: argumentsPieces level f.arguments ++
    .mark .colon :: .space :: typePieces f.type ++ directivesPieces level f.directives ++ [.line]

def enumValuePhrase (depth : Nat) : Phrase Token EnumValue :=
  .after descriptionRule fun description =>
    namePhrase.andThen fun name => do
      let directives ← directivesRule depth
      return ⟨name, description, directives⟩

def enumValuePieces (level : Nat) (v : EnumValue) : List Piece :=
  .indent level :: inlineDescription level v.description ++
    .name v.name :: directivesPieces level v.directives ++ [.line]

def inputFieldPieces (level : Nat) (v : InputValue) : List Piece :=
  .indent level :: inputValuePieces level v ++ [.line]

/-- Writes members between braces, each with lines of its own; nothing if there are no members. -/
def bodyPieces (members : List (List Piece)) : List Piece :=
  if members.isEmpty then []
  else .space :: .mark .openBrace :: .line :: members.flatten ++ [.mark .closeBrace]

/-! ## Names behind marks -/

/-- Reads what stands behind a mark, for as long as the mark is there. -/
def behindMarks {α : Type} (m : Mark) (p : Phrase Token α) : Rule Token (List α) :=
  Rule.many (· == .mark m) ((expect (.mark m)).andThen fun _ => p.rule)

/-- Reads phrases with a mark between each two, and perhaps one before the first. -/
def markedList {α : Type} (m : Mark) (p : Phrase Token α) : Rule Token (List α) := do
  let _ ← accept (.mark m)
  let first ← p.rule
  let rest ← behindMarks m p
  return first :: rest

/-- Writes names with a mark between each two. -/
def markedPieces (m : Mark) (names : List String) : List Piece :=
  Piece.separated [.space, .mark m, .space] (names.map fun n => [.name n])

/-- Reads the interfaces of a type, if the word for them is there. -/
def interfacesRule : Rule Token (List String) := do
  if ← accept (.name "implements") then markedList .ampersand namePhrase else return []

def interfacesPieces (names : List String) : List Piece :=
  if names.isEmpty then []
  else .space :: .name "implements" :: .space :: markedPieces .ampersand names

/-! ## Types -/

def fieldedRule (depth : Nat) (description : Option String) :
    Rule Token (FieldedType WrittenField) := do
  let name ← namePhrase.rule
  let interfaces ← interfacesRule
  let directives ← directivesRule depth
  let fields ← optionalGroup .openBrace .closeBrace fieldPhrase depth
  return ⟨name, description, interfaces, directives, fields⟩

/-- Writes an object or interface, from its word on. -/
def fieldedPieces (word : String) (t : FieldedType WrittenField) : List Piece :=
  .name word :: .space :: .name t.name :: interfacesPieces t.interfaces ++
    directivesPieces 0 t.directives ++ bodyPieces (t.fields.map (fieldPieces 1))

def unionRule (depth : Nat) (description : Option String) : Rule Token UnionType := do
  let name ← namePhrase.rule
  let directives ← directivesRule depth
  let members ← if ← accept (.mark .equals) then markedList .pipe namePhrase else pure []
  return ⟨name, description, directives, members⟩

def unionPieces (t : UnionType) : List Piece :=
  .name "union" :: .space :: .name t.name :: directivesPieces 0 t.directives ++
    if t.members.isEmpty then []
    else .space :: .mark .equals :: .space :: markedPieces .pipe t.members

def scalarRule (depth : Nat) (description : Option String) : Rule Token ScalarType := do
  let name ← namePhrase.rule
  let directives ← directivesRule depth
  return ⟨name, description, directives⟩

def scalarPieces (t : ScalarType) : List Piece :=
  .name "scalar" :: .space :: .name t.name :: directivesPieces 0 t.directives

def enumRule (depth : Nat) (description : Option String) : Rule Token EnumType := do
  let name ← namePhrase.rule
  let directives ← directivesRule depth
  let values ← optionalGroup .openBrace .closeBrace enumValuePhrase depth
  return ⟨name, description, directives, values⟩

def enumPieces (t : EnumType) : List Piece :=
  .name "enum" :: .space :: .name t.name :: directivesPieces 0 t.directives ++
    bodyPieces (t.values.map (enumValuePieces 1))

def inputObjectRule (depth : Nat) (description : Option String) : Rule Token InputObjectType := do
  let name ← namePhrase.rule
  let directives ← directivesRule depth
  let fields ← optionalGroup .openBrace .closeBrace inputValuePhrase depth
  return ⟨name, description, directives, fields⟩

def inputObjectPieces (t : InputObjectType) : List Piece :=
  .name "input" :: .space :: .name t.name :: directivesPieces 0 t.directives ++
    bodyPieces (t.fields.map (inputFieldPieces 1))

/-- Reads the definition of a type, behind the word that it begins with. -/
def typeRest (depth : Nat) (description : Option String) (word : String) :
    Rule Token (TypeDefinition WrittenField) :=
  match word with
  | "scalar" => .scalar <$> scalarRule depth description
  | "type" => .object <$> fieldedRule depth description
  | "interface" => .interface <$> fieldedRule depth description
  | "union" => .union <$> unionRule depth description
  | "enum" => .enum <$> enumRule depth description
  | "input" => .inputObject <$> inputObjectRule depth description
  | _ => Rule.refuse

def typeDescription {φ : Type} : TypeDefinition φ → Option String
  | .object t => t.description
  | .interface t => t.description
  | .union t => t.description
  | .scalar t => t.description
  | .enum t => t.description
  | .inputObject t => t.description

/-- Writes the definition of a type, from its word on. -/
def typeBodyPieces : TypeDefinition WrittenField → List Piece
  | .object t => fieldedPieces "type" t
  | .interface t => fieldedPieces "interface" t
  | .union t => unionPieces t
  | .scalar t => scalarPieces t
  | .enum t => enumPieces t
  | .inputObject t => inputObjectPieces t

/-- Whether an extension adds something. The interfaces of an interface alone are not enough. -/
def addsSomething : TypeDefinition WrittenField → Bool
  | .object t => !(t.interfaces.isEmpty && t.directives.isEmpty && t.fields.isEmpty)
  | .interface t => !(t.directives.isEmpty && t.fields.isEmpty)
  | .union t => !(t.directives.isEmpty && t.members.isEmpty)
  | .scalar t => !t.directives.isEmpty
  | .enum t => !(t.directives.isEmpty && t.values.isEmpty)
  | .inputObject t => !(t.directives.isEmpty && t.fields.isEmpty)

/-! ## Schema blocks, directives, extensions -/

def rootPhrase : Phrase Token (Operation × String) :=
  (entryPhrase namePhrase).andThen fun (word, name) =>
    match Operation.ofText? word with
    | some op => pure (op, name)
    | none => Rule.refuse

/-- The roots that are listed, each operation at most once. -/
def rootsOfList : List (Operation × String) → Option Roots
  | [] => some Roots.none
  | (op, name) :: rest =>
    (rootsOfList rest).bind fun roots =>
      if (roots.get? op).isSome then none else some (roots.set op (some name))

/-- Reads a schema block, behind its word. -/
def schemaRest (depth : Nat) : Rule Token SchemaBlock := do
  let directives ← directivesRule depth
  (expect (.mark .openBrace)).rule
  let listed ← Rule.many (· != .mark .closeBrace) rootPhrase
  (expect (.mark .closeBrace)).rule
  match rootsOfList listed with
  | some roots => return ⟨directives, roots⟩
  | none => Rule.refuse

def schemaPieces (block : SchemaBlock) : List Piece :=
  .name "schema" :: directivesPieces 0 block.directives ++
    .space :: .mark .openBrace :: .line ::
    block.roots.toList.flatMap (fun (op, name) =>
      [.indent 1, .name op.text, .mark .colon, .space, .name name, .line]) ++
    [.mark .closeBrace]

def locationPhrase : Phrase Token DirectiveLocation :=
  namePhrase.andThen fun name =>
    match DirectiveLocation.ofText? name with
    | some location => pure location
    | none => Rule.refuse

/-- Reads the locations of a directive. There are none if neither a name nor a mark follows. -/
def locationsRule : Rule Token (List DirectiveLocation) := do
  match ← Rule.peek with
  | some (.name _) => markedList .pipe locationPhrase
  | some (.mark .pipe) => markedList .pipe locationPhrase
  | _ => return []

/-- Reads the definition of a directive, behind its word. -/
def directiveRest (depth : Nat) (description : Option String) : Rule Token DirectiveDefinition := do
  (expect (.mark .atSign)).rule
  let name ← namePhrase.rule
  let arguments ← argumentsRule depth
  let repeatable ← accept (.name "repeatable")
  (expect (.name "on")).rule
  let locations ← locationsRule
  return ⟨name, description, arguments, repeatable, locations⟩

/-- Writes the definition of a directive, from its word on. -/
def directiveDefinitionPieces (d : DirectiveDefinition) : List Piece :=
  .name "directive" :: .space :: .mark .atSign :: .name d.name :: argumentsPieces 0 d.arguments ++
    (if d.repeatable then [.space, .name "repeatable"] else []) ++
    if d.locations.isEmpty then []
    else .space :: .name "on" :: .space :: markedPieces .pipe (d.locations.map (·.text))

/-- Reads an extension, behind its first word. -/
def extensionRest (depth : Nat) : Rule Token (TypeDefinition WrittenField) := do
  let word ← namePhrase.rule
  let definition ← typeRest depth none word
  if addsSomething definition then return definition else Rule.refuse

/-! ## Documents -/

/-- Reads a definition that may have a description, behind the word that it begins with. -/
def describedRest (depth : Nat) (description : Option String) (word : String) :
    Rule Token Definition :=
  if word = "directive" then .directive <$> directiveRest depth description
  else .type <$> typeRest depth description word

def definitionPhrase (depth : Nat) : Phrase Token Definition :=
  .next fun t =>
    match t with
    | .text description => do
      let word ← namePhrase.rule
      describedRest depth (some description) word
    | .name word =>
      if word = "schema" then .schema <$> schemaRest depth
      else if word = "extend" then .extend <$> extensionRest depth
      else describedRest depth none word
    | _ => Rule.refuse

def definitionPieces : Definition → List Piece
  | .schema block => schemaPieces block ++ [.line]
  | .type definition =>
    lineDescription 0 (typeDescription definition) ++ typeBodyPieces definition ++ [.line]
  | .directive definition =>
    lineDescription 0 definition.description ++ directiveDefinitionPieces definition ++ [.line]
  | .extend definition => .name "extend" :: .space :: typeBodyPieces definition ++ [.line]

/-- How many brackets of a document may be open at once. -/
def maxDepth : Nat := 50

def documentRule : Rule Token Document := Rule.manyOne (fun _ => true) (definitionPhrase maxDepth)

def documentOfTokens? (ts : List Token) : Option Document := (documentRule.run ts).map Prod.fst

/-- Writes a document: an empty line between each two definitions. -/
def documentPieces (document : Document) : List Piece :=
  Piece.separated [.line] (document.map definitionPieces)

end SemanticNullability.Sdl

namespace SemanticNullability

/-- The document that a text is, if it is SDL. -/
def Document.ofText? (text : String) : Option Document :=
  (Sdl.Token.ofText? text).bind Sdl.documentOfTokens?

def Document.text (document : Document) : String :=
  Sdl.Piece.textOf (Sdl.documentPieces document)

end SemanticNullability
