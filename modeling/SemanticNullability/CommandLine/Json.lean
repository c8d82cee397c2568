import SemanticNullability.Decimal
/-!
# Compact JSON

The JSON of a report: no blanks between tokens, and in strings only what has to be is escaped, so
that other characters than ASCII stand for themselves.
-/
namespace SemanticNullability.CommandLine

/-- A JSON value of a report. -/
inductive Json where
  | bool (value : Bool)
  | string (value : String)
  | array (items : List Json)
  | object (entries : List (String × Json))

namespace Json

def hexDigit (n : Nat) : Char := Nat.digitChar n

/-- How a character is written in a string. -/
def escapeChar (c : Char) : List Char :=
  match c with
  | '"' => ['\\', '"']
  | '\\' => ['\\', '\\']
  | '\n' => ['\\', 'n']
  | '\r' => ['\\', 'r']
  | '\t' => ['\\', 't']
  | '\x08' => ['\\', 'b']
  | '\x0c' => ['\\', 'f']
  | c =>
    if c.toNat < 0x20 then ['\\', 'u', '0', '0', hexDigit (c.toNat / 16), hexDigit (c.toNat % 16)]
    else [c]

def quote (s : String) : List Char := '"' :: s.toList.flatMap escapeChar ++ ['"']

mutual

def chars : Json → List Char
  | bool b => (if b then "true" else "false").toList
  | string s => quote s
  | array items => '[' :: List.intercalate [','] (itemChars items) ++ [']']
  | object entries => '\x7b' :: List.intercalate [','] (entryChars entries) ++ ['\x7d']

def itemChars : List Json → List (List Char)
  | [] => []
  | item :: rest => chars item :: itemChars rest

def entryChars : List (String × Json) → List (List Char)
  | [] => []
  | (key, value) :: rest => (quote key ++ ':' :: chars value) :: entryChars rest

end

def text (j : Json) : String := String.ofList j.chars

end Json

end SemanticNullability.CommandLine
