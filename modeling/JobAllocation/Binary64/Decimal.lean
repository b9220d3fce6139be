import JobAllocation.Decimal
import JobAllocation.Binary64.Basic

/-!
# Binary64 values and decimal numerals

`ofDecimal` rounds a numeral once, to the nearest value. `shortest` goes back: among the decimal
grids it takes the coarsest one with a point that rounds to the value, and on it the point nearest
to the value. The text of a value is that numeral in positional notation.
-/
namespace JobAllocation.Binary64

/-- The nearest value. A numeral too long for the exponent range is decided by its size alone, so
that no power of ten beyond it is computed. -/
def ofDecimal (d : Decimal) : Binary64 :=
  if d.digits = 0 then zero d.negative
  else
    match d.exponent with
    | .ofNat n =>
      if n > 309 then infinite d.negative
      else ofRatio d.negative (d.digits * 10 ^ n * one) 1
    | .negSucc n =>
      if d.digits.log2 + 331 < n then zero d.negative
      else ofRatio d.negative (d.digits * one) (10 ^ (n + 1))

/-- A decimal grid `10 ^ exponent` as a pair: the step is `up / down`. -/
def gridUp (exponent : Int) : Nat := 10 ^ exponent.toNat

def gridDown (exponent : Int) : Nat := 10 ^ (-exponent).toNat

/-- Whether `digits * 10 ^ exponent` rounds to the magnitude `n`. The interval around `n` reaches
half a spacing up and down, but only a quarter down where the spacing changes, and includes its
ends if the 53-digit significand is even. -/
def roundsTo (n digits : Nat) (exponent : Int) : Bool :=
  let s := spacing n
  let low := (4 * n - if n = 2 ^ 52 * s ∧ s ≠ 1 then s else 2 * s) * gridDown exponent
  let high := (4 * n + 2 * s) * gridDown exponent
  let point := 4 * (digits * gridUp exponent * one)
  if n / s % 2 = 0 then low ≤ point && point ≤ high else low < point && point < high

/-- The point of the decimal grid at or below the magnitude `n`. -/
def floorOn (n : Nat) (exponent : Int) : Nat :=
  n * gridDown exponent / (one * gridUp exponent)

/-- The point `k` or `k + 1` of the grid, whichever is nearer to the magnitude `n`, the upper one
if both are equally near. -/
def nearerOf (n k : Nat) (exponent : Int) : Nat :=
  if 2 * (n * gridDown exponent) < (2 * k + 1) * (one * gridUp exponent) then k else k + 1

/-- The coarsest grid from `exponent` down with a point that rounds to `n`, and its nearest such
point. Seventeen digits always suffice, so the number of grids to try is small. -/
def shortestFrom (n : Nat) (exponent : Int) : Nat → Nat × Int
  | 0 => (floorOn n exponent, exponent)
  | tries + 1 =>
    let k := floorOn n exponent
    match roundsTo n k exponent, roundsTo n (k + 1) exponent with
    | true, true => (nearerOf n k exponent, exponent)
    | true, false => (k, exponent)
    | false, true => (k + 1, exponent)
    | false, false => shortestFrom n (exponent - 1) tries

/-- The fewest digits that round to the magnitude `n`, with their power of ten. The search starts
above the leading digit, which `log2` locates to within one place. -/
def shortest (n : Nat) : Nat × Int :=
  shortestFrom n (((n.log2 : Int) - 1074) * 30103 / 100000 + 2) 22

/-- The shortest numeral of a finite value. -/
def numeral : Binary64 → Decimal
  | finite negative n _ =>
    if n = 0 then ⟨negative, 0, 0⟩ else ⟨negative, (shortest n).1, (shortest n).2⟩
  | infinite negative | undefined negative _ => ⟨negative, 0, 0⟩

/-- The text of a value: its shortest numeral in positional notation. -/
def text : Binary64 → String
  | undefined .. => "NaN"
  | infinite negative => if negative then "-inf" else "inf"
  | x => x.numeral.positional

instance : ToString Binary64 := ⟨text⟩

end JobAllocation.Binary64
