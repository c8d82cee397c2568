import SemanticNullability.Sdl.Token
/-!
# Pieces of written SDL

What is written is a list of pieces: tokens and the blanks between them. `Piece.chars` is how a
piece is written and `Piece.token?` what a reader makes of it, so that a text and its tokens come
from one list. A text that holds a line feed is written as block text, unless it has a character
that only quoted text can number.
-/
namespace SemanticNullability.Sdl

/-- A token as it is written, or what stands between tokens. -/
inductive Piece where
  | mark (m : Mark)
  | name (value : String)
  | int (value : Int64)
  | float (value : Binary64)
  /-- A text, at a level of indentation. -/
  | text (level : Nat) (value : String)
  | gap (blanks : List Char)
  deriving Inhabited

/-- Whether block text can hold a character. -/
def isPlain (c : Char) : Bool :=
  c == '\n' || c == '\r' || c == '\t' || (0x20 ≤ c.toNat && c.toNat ≤ 0xFFFF)

/-- Whether a text is written as block text. -/
def needsBlock (cs : List Char) : Bool := cs.contains '\n' && cs.all isPlain

def writeText (level : Nat) (cs : List Char) : List Char :=
  if needsBlock cs then writeBlock level cs else writeQuoted cs

namespace Piece

def chars : Piece → List Char
  | mark m => [m.char]
  | name n => n.toList
  | int n => intText n
  | float x => x.text
  | text level s => writeText level s.toList
  | gap blanks => blanks

def token? : Piece → Option Token
  | mark m => some (.mark m)
  | name n => some (.name n)
  | int n => some (.int n)
  | float x => some (.float x)
  | text _ s => some (.text s)
  | gap _ => none

def space : Piece := gap [' ']

def line : Piece := gap ['\n']

def indent (level : Nat) : Piece := gap (indentTo level)

/-- What stands between the members of a list. -/
def comma : Piece := gap [',', ' ']

/-- Lists of pieces with a piece between each two. -/
def separated (separator : List Piece) (members : List (List Piece)) : List Piece :=
  List.intercalate separator members

/-- Members between two marks, with commas; nothing if there are no members. -/
def grouped (opening closing : Mark) (members : List (List Piece)) : List Piece :=
  if members.isEmpty then []
  else mark opening :: separated [comma] members ++ [mark closing]

def textOf (pieces : List Piece) : String := String.ofList (pieces.flatMap chars)

end Piece

end SemanticNullability.Sdl
