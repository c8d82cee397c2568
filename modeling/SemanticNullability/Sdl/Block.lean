import SemanticNullability.Text.Blank
import SemanticNullability.Text.Lines
/-!
# Block text

A text between two runs of three double quotes, on any number of lines. What it stands for does
not include the indentation that its lines share, nor blank lines at its beginning and end. Inside,
three quotes are written with a backslash before them.
-/
namespace SemanticNullability.Sdl

/-! ## Reading -/

/-- The content of block text, read from behind its opening quotes, and what follows the closing
ones. Three quotes close the text unless the character before them, `previous`, is a backslash of
the content. -/
def readBlockFrom : Char → List Char → Option (List Char × List Char)
  | _, [] => none
  | previous, '"' :: '"' :: '"' :: rest =>
    if previous = '\\' then
      (readBlockFrom '"' rest).map fun (cs, r) => ('"' :: '"' :: '"' :: cs, r)
    else some ([], rest)
  | _, c :: rest => (readBlockFrom c rest).map fun (cs, r) => (c :: cs, r)

def readBlock (cs : List Char) : Option (List Char × List Char) := readBlockFrom '\n' cs

theorem length_readBlockFrom_lt {previous : Char} {cs content rest : List Char}
    (h : readBlockFrom previous cs = some (content, rest)) : rest.length < cs.length := by
  fun_induction readBlockFrom previous cs generalizing content rest with
  | case1 => simp at h
  | case2 r ih =>
    obtain ⟨⟨t, s⟩, hs, heq⟩ := Option.map_eq_some_iff.1 h
    cases heq
    have := ih hs
    simp only [List.length_cons]
    omega
  | case3 =>
    cases h
    simp only [List.length_cons]
    omega
  | case4 p c r _ ih =>
    obtain ⟨⟨t, s⟩, hs, heq⟩ := Option.map_eq_some_iff.1 h
    cases heq
    have := ih hs
    simp only [List.length_cons]
    omega

theorem length_readBlock_lt {cs content rest : List Char}
    (h : readBlock cs = some (content, rest)) : rest.length < cs.length :=
  length_readBlockFrom_lt h

/-- The number of bytes that a text takes in UTF-8. -/
def byteLength (cs : List Char) : Nat := cs.foldl (fun n c => n + c.utf8Size) 0

/-- The number of bytes of white space before the first other character. -/
def indentation (line : List Char) : Nat := byteLength (line.takeWhile isBlank)

/-- The least indentation of the lines that are not blank; 0 if there is none. -/
def commonIndentation (lines : List (List Char)) : Nat :=
  ((lines.filter fun l => !isBlankText l).map indentation).min?.getD 0

/-- Removes characters from the front as long as they fit into `n` bytes. -/
def dropBytes : Nat → List Char → List Char
  | _, [] => []
  | n, c :: cs => if c.utf8Size ≤ n then dropBytes (n - c.utf8Size) cs else c :: cs

/-- Removes an indentation of `n` bytes, unless the line is shorter. -/
def unindent (n : Nat) (line : List Char) : List Char :=
  if n ≤ byteLength line then dropBytes n line else line

def trimBlankLines (lines : List (List Char)) : List (List Char) :=
  ((lines.dropWhile isBlankText).reverse.dropWhile isBlankText).reverse

/-- Three quotes with a backslash before them stand for three quotes. -/
def unescapeQuotes : List Char → List Char
  | [] => []
  | '\\' :: '"' :: '"' :: '"' :: rest => '"' :: '"' :: '"' :: unescapeQuotes rest
  | c :: rest => c :: unescapeQuotes rest

/-- The text that the content of block text stands for. The first line has no part in the common
indentation. -/
def blockText (content : List Char) : List Char :=
  match linesOf content with
  | [] => []
  | first :: rest =>
    let lines := first :: rest.map (unindent (commonIndentation rest))
    joinLines ((trimBlankLines lines).map unescapeQuotes)

/-! ## Writing -/

/-- Writes three quotes with a backslash before them. -/
def escapeQuotes : List Char → List Char
  | [] => []
  | '"' :: '"' :: '"' :: rest => '\\' :: '"' :: '"' :: '"' :: escapeQuotes rest
  | c :: rest => c :: escapeQuotes rest

def indentTo (level : Nat) : List Char := List.replicate (2 * level) ' '

/-- Writes a line of block text; of a blank line only the end is written. -/
def writeBlockLine (level : Nat) (line : List Char) : List Char :=
  (if isBlankText line then [] else indentTo level ++ escapeQuotes line) ++ ['\n']

/-- Writes a text as block text: the lines one level deeper than the closing quotes. -/
def writeBlock (level : Nat) (cs : List Char) : List Char :=
  '"' :: '"' :: '"' :: '\n' :: (linesOf cs).flatMap (writeBlockLine (level + 1)) ++
    indentTo level ++ ['"', '"', '"']

example : String.ofList (blockText "first\n    a\n\n   b\n  ".toList) = "first\n a\n\nb" := by
  decide +kernel

example : String.ofList (writeBlock 0 "a\n \nb\n".toList) = "\"\"\"\n  a\n\n  b\n\"\"\"" := by
  decide +kernel

end SemanticNullability.Sdl
