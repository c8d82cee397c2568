import SemanticNullability.Decimal
/-!
# Binary floating-point numbers of 64 bits

A number is a sign, a significand below `2 ^ 53` and an exponent of two that is at least `-1074`,
or an infinity; there is no value that is not a number, since none can be written. Everything here
is exact arithmetic on natural numbers: `Binary64.ofDecimal` rounds a decimal number to the nearest
value, a half going to the even significand, and `Binary64.shortest` finds the fewest digits that
are read back as the same value.
-/
namespace SemanticNullability

/-- The number `± significand * 2 ^ exponent`, or an infinity. -/
inductive Binary64 where
  | finite (negative : Bool) (significand : Nat) (exponent : Int)
  | infinite (negative : Bool)
  deriving DecidableEq, Inhabited

namespace Binary64

/-- The least exponent of two; numbers below the normal range keep it. -/
def minExponent : Int := -1074

/-- The greatest exponent of two; what is larger rounds to an infinity. -/
def maxExponent : Int := 971

def zero (negative : Bool) : Binary64 := finite negative 0 minExponent

/-- Numerical equality: the two zeros are equal. -/
def same : Binary64 → Binary64 → Bool
  | finite _ 0 _, finite _ 0 _ => true
  | x, y => decide (x = y)

/-- The sign of a number, also of a zero. -/
def isNegative : Binary64 → Bool
  | finite negative _ _ => negative
  | infinite negative => negative

/-! ## Rounding -/

/-- The quotient rounded to the nearest natural number, a half to the even one. -/
def divideToEven (num den : Nat) : Nat :=
  let quotient := num / den
  let twice := 2 * (num % den)
  if twice < den then quotient
  else if den < twice then quotient + 1
  else if quotient % 2 = 0 then quotient else quotient + 1

/-- The fraction `num / den` in units of `base ^ exponent`, as a fraction again. -/
def inUnits (base num den : Nat) : Int → Nat × Nat
  | .ofNat e => (num, den * base.pow e)
  | .negSucc e => (num * base.pow (e + 1), den)

/-- The exponent of two in whose units a positive fraction has 53 binary digits before the point,
or fewer if the exponent is the least. -/
def exponentOf (num den : Nat) : Int :=
  let estimate : Int := max ((num.log2 : Int) - den.log2 - 53) minExponent
  let (n, d) := inUnits 2 num den estimate
  if d * Nat.pow 2 53 ≤ n then estimate + 1 else estimate

def ofFraction (negative : Bool) (num den : Nat) : Binary64 :=
  if num = 0 then zero negative
  else
    let exponent := exponentOf num den
    let (n, d) := inUnits 2 num den exponent
    let significand := divideToEven n d
    if significand = Nat.pow 2 53 then
      if maxExponent < exponent + 1 then infinite negative
      else finite negative (Nat.pow 2 52) (exponent + 1)
    else if maxExponent < exponent then infinite negative
    else finite negative significand exponent

/-- The value nearest to a decimal number. A number with more than 400 digits before the point is
beyond the greatest value, and one with more than 400 zeros behind it below half the least, so
neither is expanded. -/
def ofDecimal (negative : Bool) (d : Decimal) : Binary64 :=
  if d.digits = 0 then zero negative
  else if 400 < d.exponent then infinite negative
  else if d.exponent + (digitsOfNat d.digits).length < -400 then zero negative
  else match d.exponent with
    | .ofNat e => ofFraction negative (d.digits * Nat.pow 10 e) 1
    | .negSucc e => ofFraction negative d.digits (Nat.pow 10 (e + 1))

/-! ## The shortest decimal -/

/-- The position of the decimal point: a positive fraction lies between `10 ^ (k - 1)` and
`10 ^ k` for the result `k`. -/
def pointPosition (num den : Nat) : Int :=
  let k : Int := (digitsOfNat num).length - (digitsOfNat den).length
  let (n, d) := inUnits 10 num den k
  if d ≤ n then k + 1 else k

/-- The two neighbours of a fraction among the multiples of `10 ^ exponent`: the nearer of those
that are read back as `x`, the upper one if both are equally near. -/
def neighbour? (x : Binary64) (num den : Nat) (exponent : Int) : Option Decimal :=
  let (n, d) := inUnits 10 num den exponent
  let lower : Decimal := ⟨n / d, exponent⟩
  let upper : Decimal := ⟨n / d + 1, exponent⟩
  let lowerNearer := 2 * (n % d) < d
  let (first, second) := if lowerNearer then (lower, upper) else (upper, lower)
  if ofDecimal x.isNegative first = x then some first
  else if ofDecimal x.isNegative second = x then some second
  else none

/-- The decimal number that equals a fraction of a power of two. -/
def exactDecimal (significand : Nat) : Int → Decimal
  | .ofNat e => ⟨significand * Nat.pow 2 e, 0⟩
  | .negSucc e => ⟨significand * Nat.pow 5 (e + 1), .negSucc e⟩

/-- A decimal number of at most `count` digits that is read back as `x`, tried with one digit
first. -/
def search (x : Binary64) (num den : Nat) (point : Int) (count : Nat) : Option Decimal :=
  (List.range count).findSome? fun (i : Nat) => neighbour? x num den (point - (i + 1))

/-- The decimal number of fewest digits that is read back as the number `x`, which is
`± significand * 2 ^ exponent`. Seventeen digits always suffice. -/
def shortest (x : Binary64) (significand : Nat) (exponent : Int) : Decimal :=
  if significand = 0 then ⟨0, 0⟩
  else
    let (num, den) : Nat × Nat :=
      match exponent with
      | .ofNat e => (significand * Nat.pow 2 e, 1)
      | .negSucc e => (significand, Nat.pow 2 (e + 1))
    (search x num den (pointPosition num den) 17).getD (exactDecimal significand exponent)

/-- The text of a number: a sign if it is negative, and the fewest positional digits. -/
def text (x : Binary64) : List Char :=
  let unsigned :=
    match x with
    | infinite _ => ['i', 'n', 'f']
    | finite _ significand exponent => (shortest x significand exponent).text
  if x.isNegative then '-' :: unsigned else unsigned

end Binary64

instance : BEq Binary64 := ⟨Binary64.same⟩

example : String.ofList (Binary64.ofDecimal false ⟨1, 5⟩).text = "100000" := by decide +kernel

example : String.ofList (Binary64.ofDecimal true ⟨0, -1⟩).text = "-0" := by decide +kernel

example : String.ofList (Binary64.ofDecimal false ⟨1, -7⟩).text = "0.0000001" := by decide +kernel

example : String.ofList (Binary64.ofDecimal true ⟨1, 400⟩).text = "-inf" := by decide +kernel

/-- The two nearest numbers of 17 digits are equally near; the upper one is taken. -/
example :
    String.ofList (Binary64.ofDecimal false ⟨112589990684262525, -2⟩).text = "1125899906842625.3" := by
  decide +kernel

end SemanticNullability
