import SemanticNullability.TypeExpr
/-!
# The text of a type composition

A list stands in brackets, `!` follows a non-null type and `*` a semantically non-null one. Since
all wrappers but the opening bracket stand behind what they wrap, a text is a run of opening
brackets, the name, and a run of closing brackets and marks; `TypeExpr.ofText?` reads it so.
-/
namespace SemanticNullability

namespace TypeExpr

def chars : TypeExpr → List Char
  | named name => name.toList
  | list item => '[' :: item.chars ++ [']']
  | nonNull inner => inner.chars ++ ['!']
  | semanticNonNull inner => inner.chars ++ ['*']

/-- The characters of the text of a composition, before others. -/
def charsBefore : TypeExpr → List Char → List Char
  | named name, rest => name.toList ++ rest
  | list item, rest => '[' :: item.charsBefore (']' :: rest)
  | nonNull inner, rest => inner.charsBefore ('!' :: rest)
  | semanticNonNull inner, rest => inner.charsBefore ('*' :: rest)

theorem charsBefore_eq : ∀ (t : TypeExpr) (rest : List Char), t.charsBefore rest = t.chars ++ rest
  | named _, _ => rfl
  | list item, rest => by simp [charsBefore, chars, charsBefore_eq item]
  | nonNull inner, rest => by simp [charsBefore, chars, charsBefore_eq inner]
  | semanticNonNull inner, rest => by simp [charsBefore, chars, charsBefore_eq inner]

/-- The text of a composition: `[T]` for a list, `T!` for non-null, `T*` for semantic non-null. -/
def text (t : TypeExpr) : String := String.ofList (t.charsBefore [])

theorem toList_text (t : TypeExpr) : t.text.toList = t.chars := by
  simp [text, charsBefore_eq]

/-- A name in the text of a composition holds none of the marks. -/
def isNameChar (c : Char) : Bool := c != '[' && c != ']' && c != '!' && c != '*'

/-- Wraps `t` as the marks say, from left to right; `opened` brackets have to be closed. -/
def wrap? : Nat → TypeExpr → List Char → Option TypeExpr
  | 0, t, [] => some t
  | opened, t, '!' :: marks => wrap? opened (nonNull t) marks
  | opened, t, '*' :: marks => wrap? opened (semanticNonNull t) marks
  | opened + 1, t, ']' :: marks => wrap? opened (list t) marks
  | _, _, _ => none

/-- Reads the text of a composition; the name must not be empty. -/
def ofText? (s : String) : Option TypeExpr :=
  let opened := s.toList.takeWhile (· == '[')
  let rest := s.toList.dropWhile (· == '[')
  let name := rest.takeWhile isNameChar
  if name.isEmpty then none
  else wrap? opened.length (named (String.ofList name)) (rest.dropWhile isNameChar)

example : ofText? "[Int!*]!" = some (nonNull (list (semanticNonNull (nonNull (named "Int"))))) := by
  decide +kernel

example : ofText? "[Int" = none ∧ ofText? "Int]" = none ∧ ofText? "!" = none := by decide +kernel

end TypeExpr

def WrittenType.chars : WrittenType → List Char
  | named name => name.toList
  | list item => '[' :: item.chars ++ [']']
  | nonNull inner => inner.chars ++ ['!']

def WrittenType.text (t : WrittenType) : String := String.ofList t.chars

end SemanticNullability
