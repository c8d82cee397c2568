import SemanticNullability.Decimal.Binary64
/-!
# Numbers

How the run of characters of a number is read: as an integer of 64 bits, or, with a fraction or an
exponent, as the nearest floating-point value. An exponent without a sign must begin with one of
the digits 1 to 8.
-/
namespace SemanticNullability.Sdl

/-- A number as it is written. -/
inductive Number where
  | int (value : Int64)
  | float (value : Binary64)
  deriving DecidableEq

/-- Whether digits may stand before the point: a zero stands alone. -/
def isWholePart : List Char → Bool
  | [] => false
  | ['0'] => true
  | d :: _ => d != '0'

/-- Whether a text is a run of at least one digit. -/
def isDigits (cs : List Char) : Bool := !cs.isEmpty && cs.all Char.isDigit

/-- The integer of a sign and digits, if it has 64 bits. -/
def intOf? (negative : Bool) (digits : List Char) : Option Int64 :=
  let n : Int := natOfDigits digits
  let value := if negative then -n else n
  if Int64.minValue.toInt ≤ value ∧ value ≤ Int64.maxValue.toInt then some (Int64.ofInt value)
  else none

/-- The value of an exponent, the letter aside. -/
def exponent? : List Char → Option Int
  | '+' :: ds => if isDigits ds then some (natOfDigits ds) else none
  | '-' :: ds => if isDigits ds then some (-(natOfDigits ds : Int)) else none
  | d :: ds => if '1' ≤ d ∧ d ≤ '8' ∧ ds.all Char.isDigit then some (natOfDigits (d :: ds)) else none
  | [] => none

/-- The value of a number's digits before and behind the point and its exponent. -/
def floatOf (negative : Bool) (whole fraction : List Char) (exponent : Int) : Binary64 :=
  Binary64.ofDecimal negative ⟨natOfDigits (whole ++ fraction), exponent - fraction.length⟩

def isExponentLetter (c : Char) : Bool := c == 'e' || c == 'E'

/-- Reads what follows the digits before the point. -/
def numberTail? (negative : Bool) (whole : List Char) : List Char → Option Number
  | [] => (intOf? negative whole).map .int
  | '.' :: cs =>
    let fraction := cs.takeWhile Char.isDigit
    if fraction.isEmpty then none
    else
      match cs.dropWhile Char.isDigit with
      | [] => some (.float (floatOf negative whole fraction 0))
      | e :: exponent =>
        if isExponentLetter e then
          (exponent? exponent).map fun x => .float (floatOf negative whole fraction x)
        else none
  | e :: exponent =>
    if isExponentLetter e then
      (exponent? exponent).map fun x => .float (floatOf negative whole [] x)
    else none

/-- Reads digits, behind the sign. -/
def unsignedNumber? (negative : Bool) (cs : List Char) : Option Number :=
  let whole := cs.takeWhile Char.isDigit
  if isWholePart whole then numberTail? negative whole (cs.dropWhile Char.isDigit) else none

/-- Reads the characters of a number, all of them. -/
def number? : List Char → Option Number
  | '-' :: cs => unsignedNumber? true cs
  | cs => unsignedNumber? false cs

def intText (n : Int64) : List Char :=
  if n.toInt < 0 then '-' :: digitsOfNat n.toInt.natAbs else digitsOfNat n.toInt.natAbs

end SemanticNullability.Sdl
