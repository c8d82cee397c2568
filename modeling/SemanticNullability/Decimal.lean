/-!
# Decimal numbers

A decimal number is a natural number of units of a power of ten. Its text is positional: no
exponent, no zeros at the end of the fraction, and no point without a fraction.
-/
namespace SemanticNullability

/-- The number `digits * 10 ^ exponent`. -/
structure Decimal where
  digits : Nat
  exponent : Int
  deriving DecidableEq

def natOfDigits (ds : List Char) : Nat :=
  ds.foldl (fun n d => 10 * n + (d.toNat - '0'.toNat)) 0

def digitsOfNat (n : Nat) : List Char := Nat.toDigits 10 n

def dropFinalZeros (ds : List Char) : List Char := (ds.reverse.dropWhile (· == '0')).reverse

namespace Decimal

/-- The text for a number of units that are whole: zeros are added behind. -/
def wholeText (digits zeros : Nat) : List Char := digitsOfNat digits ++ List.replicate zeros '0'

/-- The text for a number of units that have `places` digits behind the point. -/
def fractionText (digits places : Nat) : List Char :=
  let ds := digitsOfNat digits
  let padded := List.replicate (places + 1 - ds.length) '0' ++ ds
  let whole := padded.take (padded.length - places)
  let fraction := dropFinalZeros (padded.drop (padded.length - places))
  if fraction.isEmpty then whole else whole ++ '.' :: fraction

/-- The positional text of a decimal number. -/
def text (d : Decimal) : List Char :=
  match d.exponent with
  | .ofNat zeros => wholeText d.digits zeros
  | .negSucc n => fractionText d.digits (n + 1)

end Decimal

end SemanticNullability
