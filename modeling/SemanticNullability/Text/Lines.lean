/-!
# Lines

A line ends at a line feed, together with one carriage return before it. What follows the last line
feed is a line only if it is not empty.
-/
namespace SemanticNullability

/-- The pieces of a text between line feeds; there is always at least one. -/
def splitAtLineFeeds : List Char → List (List Char)
  | [] => [[]]
  | c :: cs =>
    if c = '\n' then [] :: splitAtLineFeeds cs
    else
      match splitAtLineFeeds cs with
      | [] => [[c]]
      | piece :: pieces => (c :: piece) :: pieces

/-- Removes one carriage return at the end. -/
def dropFinalReturn : List Char → List Char
  | [] => []
  | ['\r'] => []
  | c :: cs => c :: dropFinalReturn cs

/-- The lines that end in a line feed lose a carriage return; an empty last line is none. -/
def linesOfPieces : List (List Char) → List (List Char)
  | [] => []
  | [last] => if last.isEmpty then [] else [last]
  | piece :: pieces => dropFinalReturn piece :: linesOfPieces pieces

def linesOf (cs : List Char) : List (List Char) := linesOfPieces (splitAtLineFeeds cs)

/-- Lines with a line feed between each two. -/
def joinLines (lines : List (List Char)) : List Char := List.intercalate ['\n'] lines

theorem splitAtLineFeeds_ne_nil (cs : List Char) : splitAtLineFeeds cs ≠ [] := by
  cases cs with
  | nil => simp [splitAtLineFeeds]
  | cons c cs =>
    rw [splitAtLineFeeds]
    split
    · simp
    · split <;> simp

/-- Nothing is lost between the line feeds. -/
theorem joinLines_splitAtLineFeeds (cs : List Char) : joinLines (splitAtLineFeeds cs) = cs := by
  induction cs with
  | nil => rfl
  | cons c cs ih =>
    rw [splitAtLineFeeds]
    cases h : splitAtLineFeeds cs with
    | nil => exact absurd h (splitAtLineFeeds_ne_nil cs)
    | cons piece pieces =>
      rw [h] at ih
      split
      · rename_i hc
        subst hc
        cases pieces with
        | nil => simpa [joinLines, List.intercalate] using ih
        | cons p ps => simpa [joinLines, List.intercalate] using ih
      · cases pieces with
        | nil => simpa [joinLines, List.intercalate] using ih
        | cons p ps => simpa [joinLines, List.intercalate] using ih

end SemanticNullability
