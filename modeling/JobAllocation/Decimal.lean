/-!
# Decimal numerals

A numeral is a sign, a string of digits read as a natural number, and the power of ten that its
last digit counts. It is what a text says before any number system rounds it.
-/
namespace JobAllocation

/-- The number `digits * 10 ^ exponent` with a sign of its own, so that zero has two signs. -/
structure Decimal where
  negative : Bool
  digits : Nat
  exponent : Int
  deriving DecidableEq, Repr

namespace Decimal

/-- The value of a decimal digit. -/
def digitValue (c : Char) : Nat := c.toNat - '0'.toNat

def isDigit (c : Char) : Bool := '0' ≤ c && c ≤ '9'

/-- The natural number that decimal digits write. -/
def natural (cs : List Char) : Nat := cs.foldl (fun n c => 10 * n + digitValue c) 0

/-- The numeral with the given digits before and after the point, times a power of ten. -/
def ofParts (negative : Bool) (whole fraction : List Char) (exponent : Int) : Decimal where
  negative := negative
  digits := natural (whole ++ fraction)
  exponent := exponent - fraction.length

/-- The digits of a natural number, most significant first. -/
def digitText (n : Nat) : List Char := Nat.toDigits 10 n

/-- The numeral without an exponent mark: zeros fill the places between the digits and the point. -/
def positional (d : Decimal) : String :=
  let text := digitText d.digits
  let body :=
    match d.exponent with
    | .ofNat n => text ++ List.replicate n '0'
    | .negSucc n =>
      let places := n + 1
      let padded := List.replicate (places + 1 - text.length) '0' ++ text
      padded.take (padded.length - places) ++ '.' :: padded.drop (padded.length - places)
  String.ofList (if d.negative then '-' :: body else body)

end Decimal
end JobAllocation
