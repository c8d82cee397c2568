import SemanticNullability.Grammar
import SemanticNullability.Sdl.Block
import SemanticNullability.Sdl.Number
import SemanticNullability.Sdl.Quoted
/-!
# Tokens

The marks, names, numbers and texts that SDL is made of. Between them blanks, line ends, commas,
byte order marks and comments count for nothing. A text holds what its quotes stand for, so it does
not matter any more which kind of quotes they were. `...` belongs to no definition and is refused.
-/
namespace SemanticNullability.Sdl

inductive Mark where
  | openParen | closeParen | openBracket | closeBracket | openBrace | closeBrace
  | bang | dollar | colon | equals | atSign | pipe | ampersand
  deriving DecidableEq, Inhabited

namespace Mark

def char : Mark → Char
  | openParen => '('
  | closeParen => ')'
  | openBracket => '['
  | closeBracket => ']'
  | openBrace => '\x7b'
  | closeBrace => '\x7d'
  | bang => '!'
  | dollar => '$'
  | colon => ':'
  | equals => '='
  | atSign => '@'
  | pipe => '|'
  | ampersand => '&'

def all : List Mark :=
  [openParen, closeParen, openBracket, closeBracket, openBrace, closeBrace, bang, dollar, colon,
    equals, atSign, pipe, ampersand]

def ofChar? (c : Char) : Option Mark := all.find? (·.char == c)

theorem ofChar?_char (m : Mark) : ofChar? m.char = some m := by cases m <;> decide

end Mark

inductive Token where
  | mark (m : Mark)
  | name (name : String)
  | int (value : Int64)
  | float (value : Binary64)
  | text (text : String)
  deriving DecidableEq, Inhabited

/-! ## Between tokens -/

/-- The characters that count for nothing between tokens. -/
def isIgnored (c : Char) : Bool :=
  c == ' ' || c == '\t' || c == '\r' || c == '\n' || c == ',' || c == '\ufeff'

/-- The characters that end a comment. -/
def isLineEnd (c : Char) : Bool := c == '\n' || c == '\r'

/-- Removes what counts for nothing from the front, also the rest of a comment if the text begins
in one. -/
def skipFrom : (inComment : Bool) → List Char → List Char
  | _, [] => []
  | true, c :: cs => skipFrom (!isLineEnd c) cs
  | false, c :: cs =>
    if c = '#' then skipFrom true cs
    else if isIgnored c then skipFrom false cs
    else c :: cs

def skipIgnored (cs : List Char) : List Char := skipFrom false cs

theorem length_skipFrom_le (inComment : Bool) (cs : List Char) :
    (skipFrom inComment cs).length ≤ cs.length := by
  fun_induction skipFrom inComment cs with
  | case1 => exact Nat.le_refl _
  | case2 c cs ih => exact Nat.le_succ_of_le ih
  | case3 cs ih => exact Nat.le_succ_of_le ih
  | case4 c cs _ _ ih => exact Nat.le_succ_of_le ih
  | case5 => exact Nat.le_refl _

/-- Reads what counts for nothing. -/
def ignored : Rule Char Unit :=
  ⟨fun cs => some ((), skipIgnored cs), fun h => by cases h; exact length_skipFrom_le false _⟩

/-! ## Names and numbers -/

def isNameStart (c : Char) : Bool := c.isAlpha || c == '_'

def isNameChar (c : Char) : Bool := c.isAlphanum || c == '_'

def isNumberStart (c : Char) : Bool := c == '-' || c.isDigit

/-- Whether a character ends the run of characters of a number. -/
def endsNumber (c : Char) : Bool :=
  c == ' ' || c == '\n' || c == '\r' || c == '\t' || c == ',' || c == '#' || c == '!' || c == '$' ||
    c == ':' || c == '=' || c == '@' || c == '|' || c == '&' || c == '(' || c == ')' || c == '[' ||
    c == ']' || c == '\x7b' || c == '\x7d'

def charsWhile (p : Char → Bool) : Rule Char (List Char) :=
  ⟨fun cs => some (cs.takeWhile p, cs.dropWhile p), fun h => by
    cases h
    exact (List.dropWhile_suffix p).length_le⟩

def Number.token : Number → Token
  | int value => .int value
  | float value => .float value

/-! ## Texts -/

/-- Reads quoted text, behind its opening quote. -/
def quotedRest : Rule Char (List Char) :=
  ⟨readQuoted, fun h => Nat.le_of_lt (length_readQuoted_lt h)⟩

/-- Reads block text, behind its opening quotes. -/
def blockRest : Rule Char (List Char) :=
  ⟨fun cs => (readBlock cs).map fun (content, rest) => (blockText content, rest), fun h => by
    obtain ⟨⟨content, r⟩, hr, heq⟩ := Option.map_eq_some_iff.1 h
    cases heq
    exact Nat.le_of_lt (length_readBlock_lt hr)⟩

/-- Reads two quotes, if there are two. -/
def twoQuotes : Rule Char Bool :=
  ⟨fun cs =>
    match cs with
    | '"' :: '"' :: rest => some (true, rest)
    | _ => some (false, cs), by
    intro ts a rest h
    split at h
    · cases h
      simp only [List.length_cons]
      omega
    · cases h
      exact Nat.le_refl _⟩

/-- Reads a text, behind its first quote. Three quotes open block text. -/
def textRest : Rule Char (List Char) := do
  if ← twoQuotes then blockRest else quotedRest

/-! ## Tokens of a text -/

/-- Reads a token whose first character is given. -/
def tokenRest (c : Char) : Rule Char Token :=
  match Mark.ofChar? c with
  | some m => pure (.mark m)
  | none =>
    if isNameStart c then do
      let cs ← charsWhile isNameChar
      return .name (String.ofList (c :: cs))
    else if isNumberStart c then do
      let cs ← charsWhile fun d => !endsNumber d
      match number? (c :: cs) with
      | some n => return n.token
      | none => Rule.refuse
    else if c = '"' then do
      let cs ← textRest
      return .text (String.ofList cs)
    else Rule.refuse

/-- Reads a token and what follows it up to the next one. -/
def token : Phrase Char Token :=
  .next fun c => do
    let t ← tokenRest c
    ignored
    return t

def tokens : Rule Char (List Token) := do
  ignored
  Rule.many (fun _ => true) token

/-- The tokens of a text, if it consists of tokens. -/
def Token.ofText? (text : String) : Option (List Token) := (tokens.run text.toList).map Prod.fst

end SemanticNullability.Sdl
