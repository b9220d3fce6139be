import JobAllocation.Arithmetic

/-!
# Quantities

The number system in which speeds, times and loads are measured. Every definition of the library
is stated over it, so one text covers binary64 arithmetic, where results are rounded, and exact
arithmetic, where they are not.

Only the order laws that the search for better assignments needs to terminate are part of the
interface. No law of addition or division is assumed.
-/
namespace JobAllocation

/-- A number system with zero, infinity, four-function arithmetic and two comparisons. -/
class Quantity (T : Type) extends Zero T, Add T, Sub T, Div T, LE T, LT T where
  /-- Later than every finite time. -/
  infinity : T
  /-- An amount of work as a quantity. -/
  ofNat : Nat → T
  /-- Neither infinite nor undefined. -/
  isFinite : T → Bool
  /-- A total order of all values, the undefined ones included. -/
  totalOrder : T → T → Ordering
  decidableLE : DecidableLE T
  decidableLT : DecidableLT T
  lt_iff : ∀ x y : T, x < y ↔ x ≤ y ∧ ¬ y ≤ x
  le_trans : ∀ {x y z : T}, x ≤ y → y ≤ z → x ≤ z

attribute [reducible, instance] Quantity.decidableLE Quantity.decidableLT

namespace Quantity

variable {T : Type} [Quantity T]

theorem lt_irrefl (x : T) : ¬ x < x := by
  intro h
  rw [lt_iff] at h
  exact h.2 h.1

theorem lt_trans {x y z : T} (hxy : x < y) (hyz : y < z) : x < z := by
  rw [lt_iff] at hxy hyz ⊢
  exact ⟨le_trans hxy.1 hyz.1, fun hzx => hxy.2 (le_trans hyz.1 hzx)⟩

theorem le_of_lt {x y : T} (h : x < y) : x ≤ y := ((lt_iff x y).mp h).1

/-- Each is at most the other. An undefined value is not even equal to itself, and the two zeros
are equal. -/
def Same (x y : T) : Prop := x ≤ y ∧ y ≤ x

instance (x y : T) : Decidable (Same x y) := inferInstanceAs (Decidable (_ ∧ _))

/-- The larger of two quantities. An undefined one gives way, and of two equal ones the first is
kept. -/
def larger (x y : T) : T :=
  if x < y then y else if x ≤ x then x else y

/-- The smaller of two quantities. An undefined one gives way, and of two equal ones the first is
kept. -/
def smaller (x y : T) : T :=
  if y < x then y else if x ≤ x then x else y

/-- The distance from zero. -/
def magnitude (x : T) : T := if x < 0 then 0 - x else x

/-- The largest of a list and zero. -/
def largest (xs : List T) : T := xs.foldl larger 0

/-- The smallest of a list, infinity if it is empty. -/
def smallest (xs : List T) : T := xs.foldl smaller infinity

/-- The sum of a list, from the left. The sum of one value is that value itself. -/
def sum : List T → T
  | [] => 0
  | x :: xs => xs.foldl (· + ·) x

/-- The sum of a list, from the left, on top of zero. -/
def total (xs : List T) : T := xs.foldl (· + ·) 0

end Quantity
end JobAllocation
