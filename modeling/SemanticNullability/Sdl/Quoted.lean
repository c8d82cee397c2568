import SemanticNullability.Decimal
/-!
# Quoted text

A text between two double quotes, on one line. A backslash begins an escape. Reading knows `\u`
with four characters that are a hexadecimal number; the code point must not be a surrogate.
Writing puts the characters from space to U+FFFF as they are, apart from the quote and the
backslash, and numbers the others in decimal.
-/
namespace SemanticNullability.Sdl

/-! ## Reading -/

/-- The character that a one-letter escape stands for. -/
def escapedChar? : Char → Option Char
  | '"' => some '"'
  | '\\' => some '\\'
  | '/' => some '/'
  | 'b' => some '\x10'
  | 'f' => some '\x0c'
  | 'n' => some '\n'
  | 'r' => some '\r'
  | 't' => some '\t'
  | _ => none

def hexValue? (c : Char) : Option Nat :=
  if '0' ≤ c ∧ c ≤ '9' then some (c.toNat - '0'.toNat)
  else if 'a' ≤ c ∧ c ≤ 'f' then some (c.toNat - 'a'.toNat + 10)
  else if 'A' ≤ c ∧ c ≤ 'F' then some (c.toNat - 'A'.toNat + 10)
  else none

/-- The value of hexadecimal digits that follow the value `n`. -/
def hexNumber? : Nat → List Char → Option Nat
  | n, [] => some n
  | n, c :: cs => (hexValue? c).bind fun d => hexNumber? (16 * n + d) cs

/-- The character of a `\u` escape. The four characters are a hexadecimal number, of which the
first may be a plus sign. -/
def codePoint? : Char → Char → Char → Char → Option Char
  | a, b, c, d =>
    let digits := if a = '+' then [b, c, d] else [a, b, c, d]
    (hexNumber? 0 digits).bind fun n =>
      if h : n.isValidChar then some (Char.ofNatAux n h) else none

/-- Reads quoted text behind its opening quote; gives the text and what follows the closing quote.
There is no line feed in it. -/
def readQuoted : List Char → Option (List Char × List Char)
  | [] => none
  | '"' :: rest => some ([], rest)
  | '\n' :: _ => none
  | '\\' :: 'u' :: a :: b :: c :: d :: rest =>
    (codePoint? a b c d).bind fun e => (readQuoted rest).map fun (cs, r) => (e :: cs, r)
  | '\\' :: c :: rest =>
    (escapedChar? c).bind fun e => (readQuoted rest).map fun (cs, r) => (e :: cs, r)
  | c :: rest => (readQuoted rest).map fun (cs, r) => (c :: cs, r)

theorem length_readQuoted_lt {cs text rest : List Char} (h : readQuoted cs = some (text, rest)) :
    rest.length < cs.length := by
  fun_induction readQuoted cs generalizing text rest with
  | case1 => simp at h
  | case2 r =>
    cases h
    simp
  | case3 => simp at h
  | case4 a b c d r ih =>
    obtain ⟨e, _, he⟩ := Option.bind_eq_some_iff.1 h
    obtain ⟨⟨t, s⟩, hs, heq⟩ := Option.map_eq_some_iff.1 he
    cases heq
    have := ih hs
    simp only [List.length_cons]
    omega
  | case5 c r _ ih =>
    obtain ⟨e, _, he⟩ := Option.bind_eq_some_iff.1 h
    obtain ⟨⟨t, s⟩, hs, heq⟩ := Option.map_eq_some_iff.1 he
    cases heq
    have := ih hs
    simp only [List.length_cons]
    omega
  | case6 c r _ _ _ _ ih =>
    obtain ⟨⟨t, s⟩, hs, heq⟩ := Option.map_eq_some_iff.1 h
    cases heq
    have := ih hs
    simp only [List.length_cons]
    omega

/-! ## Writing -/

/-- The decimal number of a code point, with at least four digits. -/
def codePointDigits (c : Char) : List Char :=
  let ds := digitsOfNat c.toNat
  List.replicate (4 - ds.length) '0' ++ ds

def quoteChar (c : Char) : List Char :=
  if c = '\r' then ['\\', 'r']
  else if c = '\n' then ['\\', 'n']
  else if c = '\t' then ['\\', 't']
  else if c = '"' then ['\\', '"']
  else if c = '\\' then ['\\', '\\']
  else if 0x20 ≤ c.toNat ∧ c.toNat ≤ 0xFFFF then [c]
  else '\\' :: 'u' :: codePointDigits c

def writeQuoted (cs : List Char) : List Char := '"' :: cs.flatMap quoteChar ++ ['"']

example : readQuoted "\\u+041\\b\" @".toList = some (['A', '\x10'], [' ', '@']) := by decide +kernel

example : String.ofList (writeQuoted ['\x1f', '/', '"']) = "\"\\u0031/\\\"\"" := by decide +kernel

end SemanticNullability.Sdl
