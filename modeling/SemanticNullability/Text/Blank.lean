/-!
# White space

The 25 characters with the Unicode property White_Space, and lines that hold nothing else.
-/
namespace SemanticNullability

/-- The characters with the property White_Space, as ranges of code points. -/
def blankRanges : List (Nat × Nat) :=
  [(0x9, 0xD), (0x20, 0x20), (0x85, 0x85), (0xA0, 0xA0), (0x1680, 0x1680), (0x2000, 0x200A),
    (0x2028, 0x2029), (0x202F, 0x202F), (0x205F, 0x205F), (0x3000, 0x3000)]

def isBlank (c : Char) : Bool :=
  blankRanges.any fun (first, last) => first ≤ c.toNat && c.toNat ≤ last

/-- Whether a text is empty or holds white space only. -/
def isBlankText (cs : List Char) : Bool := cs.all isBlank

example : (blankRanges.map fun (first, last) => last + 1 - first).sum = 25 := by decide

end SemanticNullability
