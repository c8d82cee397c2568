import SemanticNullability.Directive
import SemanticNullability.Sdl.Piece
/-!
# Values, types and directives in SDL

How they are read and how they are written, one beside the other. Brackets nest at most fifty deep
in a document; `depth` is the number of brackets that may still be opened, and it is what the
recursion of `valuePhrase` and `typePhrase` goes down.
-/
namespace SemanticNullability.Sdl

/-! ## Reading tokens -/

def namePhrase : Phrase Token String :=
  .next fun t =>
    match t with
    | .name name => pure name
    | _ => Rule.refuse

def expect (expected : Token) : Phrase Token Unit :=
  .next fun t => if t = expected then pure () else Rule.refuse

/-- Reads a certain token if it is the next one. -/
def accept (expected : Token) : Rule Token Bool := do
  if (← Rule.peek) = some expected then
    (expect expected).rule
    return true
  else return false

/-- Reads members between two marks, at least one; `member` gets the depth inside. -/
def group {α : Type} (opening closing : Mark) (member : Nat → Phrase Token α) (depth : Nat) :
    Rule Token (List α) := do
  (expect (.mark opening)).rule
  match depth with
  | 0 => Rule.refuse
  | depth + 1 =>
    let members ← Rule.manyOne (· != .mark closing) (member depth)
    (expect (.mark closing)).rule
    return members

/-- Reads members between two marks if the first mark is the next token. -/
def optionalGroup {α : Type} (opening closing : Mark) (member : Nat → Phrase Token α)
    (depth : Nat) : Rule Token (List α) := do
  if (← Rule.peek) = some (.mark opening) then group opening closing member depth
  else return []

/-- Reads a name, a colon and a phrase. -/
def entryPhrase {α : Type} (p : Phrase Token α) : Phrase Token (String × α) :=
  namePhrase.andThen fun name => do
    (expect (.mark .colon)).rule
    let a ← p.rule
    return (name, a)

/-! ## Values -/

def valueOfName : String → Value
  | "true" => .boolean true
  | "false" => .boolean false
  | "null" => .null
  | name => .enum name

/-- Reads the rest of a value that opens no bracket. A constant holds no variable. -/
def atomRest (constant : Bool) : Token → Rule Token Value
  | .name name => pure (valueOfName name)
  | .int value => pure (.int value)
  | .float value => pure (.float value)
  | .text text => pure (.string text)
  | .mark .dollar => if constant then Rule.refuse else .variable <$> namePhrase.rule
  | .mark _ => Rule.refuse

def listRest (item : Phrase Token Value) : Rule Token Value := do
  let items ← Rule.many (· != .mark .closeBracket) item
  (expect (.mark .closeBracket)).rule
  return .list items

def objectRest (item : Phrase Token Value) : Rule Token Value := do
  let entries ← Rule.many (· != .mark .closeBrace) (entryPhrase item)
  (expect (.mark .closeBrace)).rule
  return Value.ofEntries entries

def valuePhrase (constant : Bool) : Nat → Phrase Token Value
  | 0 => .next (atomRest constant)
  | depth + 1 =>
    .next fun t =>
      match t with
      | .mark .openBracket => listRest (valuePhrase constant depth)
      | .mark .openBrace => objectRest (valuePhrase constant depth)
      | t => atomRest constant t

mutual

def valuePieces (level : Nat) : Value → List Piece
  | .variable name => [.mark .dollar, .name name]
  | .int value => [.int value]
  | .float value => [.float value]
  | .string text => [.text level text]
  | .boolean value => [.name (if value then "true" else "false")]
  | .null => [.name "null"]
  | .enum name => [.name name]
  | .list items =>
    .mark .openBracket :: Piece.separated [.comma] (itemPieces level items) ++
      [.mark .closeBracket]
  | .object entries =>
    .mark .openBrace :: Piece.separated [.comma] (entryPieces level entries) ++
      [.mark .closeBrace]

def itemPieces (level : Nat) : List Value → List (List Piece)
  | [] => []
  | item :: rest => valuePieces level item :: itemPieces level rest

def entryPieces (level : Nat) : List Entry → List (List Piece)
  | [] => []
  | (key, value) :: rest =>
    (.name key :: .mark .colon :: .space :: valuePieces level value) :: entryPieces level rest

end

/-! ## Types -/

/-- Reads the mark of a non-null type, if it is there. -/
def bangRest (t : WrittenType) : Rule Token WrittenType := do
  if ← accept (.mark .bang) then return .nonNull t else return t

def typePhrase : Nat → Phrase Token WrittenType
  | 0 =>
    .next fun t =>
      match t with
      | .name name => bangRest (.named name)
      | _ => Rule.refuse
  | depth + 1 =>
    .next fun t =>
      match t with
      | .name name => bangRest (.named name)
      | .mark .openBracket => do
        let item ← (typePhrase depth).rule
        (expect (.mark .closeBracket)).rule
        bangRest (.list item)
      | _ => Rule.refuse

def typePieces : WrittenType → List Piece
  | .named name => [.name name]
  | .list item => .mark .openBracket :: typePieces item ++ [.mark .closeBracket]
  | .nonNull inner => typePieces inner ++ [.mark .bang]

/-! ## Directives -/

def directivePhrase (depth : Nat) : Phrase Token Directive :=
  (expect (.mark .atSign)).andThen fun _ => do
    let name ← namePhrase.rule
    let arguments ← optionalGroup .openParen .closeParen
      (fun depth => entryPhrase (valuePhrase false depth)) depth
    return ⟨name, arguments⟩

def directivesRule (depth : Nat) : Rule Token (List Directive) :=
  Rule.many (· == .mark .atSign) (directivePhrase depth)

/-- Writes a directive, with a blank before it. -/
def directivePieces (level : Nat) (d : Directive) : List Piece :=
  .space :: .mark .atSign :: .name d.name ::
    Piece.grouped .openParen .closeParen (entryPieces level d.arguments)

def directivesPieces (level : Nat) (ds : List Directive) : List Piece :=
  ds.flatMap (directivePieces level)

/-! ## Descriptions and input values -/

def descriptionRule : Rule Token (Option String) := do
  match ← Rule.peek with
  | some (.text text) =>
    (expect (.text text)).rule
    return some text
  | _ => return none

/-- Writes a description on the line of what it describes. -/
def inlineDescription (level : Nat) : Option String → List Piece
  | some text => [.text level text, .space]
  | none => []

/-- Writes a description on lines of its own, behind the indentation. -/
def lineDescription (level : Nat) : Option String → List Piece
  | some text => [.indent level, .text level text, .line]
  | none => []

def inputValuePhrase (depth : Nat) : Phrase Token InputValue :=
  .after descriptionRule fun description =>
    namePhrase.andThen fun name => do
      (expect (.mark .colon)).rule
      let type ← (typePhrase depth).rule
      let defaultValue ←
        if ← accept (.mark .equals) then some <$> (valuePhrase true depth).rule else pure none
      let directives ← directivesRule depth
      return ⟨name, description, type, defaultValue, directives⟩

def inputValuePieces (level : Nat) (v : InputValue) : List Piece :=
  inlineDescription level v.description ++ .name v.name :: .mark .colon :: .space ::
    typePieces v.type ++
    (match v.defaultValue with
      | some value => .space :: .mark .equals :: .space :: valuePieces level value
      | none => []) ++
    directivesPieces level v.directives

/-- Reads the arguments of a field or directive, if there are any. -/
def argumentsRule (depth : Nat) : Rule Token (List InputValue) :=
  optionalGroup .openParen .closeParen inputValuePhrase depth

def argumentsPieces (level : Nat) (vs : List InputValue) : List Piece :=
  Piece.grouped .openParen .closeParen (vs.map (inputValuePieces level))

end SemanticNullability.Sdl
