import JobAllocation.Exact
import JobAllocation.Proofs.Times
import Mathlib.Algebra.Order.Field.Rat

/-!
# Times without rounding

Rational times from zero on, and what never comes, obey the laws of times. Here times that agree are
equal.
-/
namespace JobAllocation.Exact

theorem le_iff {x y : Exact} : x ≤ y ↔ x.le y = true := Iff.rfl

theorem rational_le_iff {x y : Rat} : rational x ≤ rational y ↔ x ≤ y := by
  rw [le_iff, le, decide_eq_true_iff]

theorem rational_lt_iff {x y : Rat} : rational x < rational y ↔ x < y := by
  rw [Quantity.lt_iff, rational_le_iff, rational_le_iff, not_le]
  exact ⟨fun h => h.2, fun h => ⟨Rat.le_of_lt h, h⟩⟩

theorem zero_le_rational_iff {x : Rat} : (0 : Exact) ≤ rational x ↔ 0 ≤ x := rational_le_iff

theorem le_never (x : Exact) : x ≤ never := by
  cases x <;> rfl

theorem not_never_le_rational (x : Rat) : ¬ never ≤ rational x := by
  intro h
  cases h

theorem eq_of_same {x y : Exact} (h : Quantity.Same x y) : x = y := by
  cases x with
  | rational a =>
    cases y with
    | rational b =>
      have hab := rational_le_iff.mp h.1
      have hba := rational_le_iff.mp h.2
      rw [Rat.le_antisymm hab hba]
    | never => exact absurd h.2 (not_never_le_rational a)
  | never =>
    cases y with
    | rational b => exact absurd h.1 (not_never_le_rational b)
    | never => rfl

theorem add_never (x : Exact) : x + never = never := by
  cases x <;> rfl

theorem never_add (x : Exact) : never + x = never := by
  cases x <;> rfl

instance : RightCommutative fun x y : Exact => x + y where
  right_comm x y z := by
    cases x <;> cases y <;> cases z <;> try rfl
    exact congrArg rational (add_right_comm _ _ _)

/-- An amount of work takes a rational time, none at all at an endless speed. -/
theorem exists_work (n : Nat) {s : Exact} (hs : 0 < s) :
    ∃ d : Rat, 0 ≤ d ∧ Quantity.ofNat n / s = rational d := by
  cases s with
  | rational s =>
    have hpos : 0 ≤ s := zero_le_rational_iff.mp (Quantity.le_of_lt hs)
    exact ⟨n / s, div_nonneg n.cast_nonneg hpos, rfl⟩
  | never => exact ⟨0, Rat.le_refl, rfl⟩

instance : LawfulQuantity Exact where
  zero_le_zero := zero_le_rational_iff.mpr Rat.le_refl
  le_total {x y} _ _ := le_total x y
  le_infinity {x} _ := le_never x
  add_le_add {x y d e} hx hxy hd hde := by
    cases y with
    | never =>
      rw [never_add]
      exact le_never _
    | rational y =>
      cases e with
      | never =>
        rw [add_never]
        exact le_never _
      | rational e =>
        cases x with
        | never => exact absurd hxy (not_never_le_rational y)
        | rational x =>
          cases d with
          | never => exact absurd hde (not_never_le_rational e)
          | rational d =>
            exact rational_le_iff.mpr
              (add_le_add (rational_le_iff.mp hxy) (rational_le_iff.mp hde))
  le_add {x d} hx hd := by
    cases d with
    | never =>
      rw [add_never]
      exact le_never x
    | rational d =>
      cases x with
      | never =>
        rw [never_add]
        exact le_never never
      | rational x =>
        exact rational_le_iff.mpr (le_add_of_nonneg_right (zero_le_rational_iff.mp hd))
  work_nonneg n {s} _ hs := by
    obtain ⟨d, hd, heq⟩ := exists_work n hs
    rw [heq]
    exact zero_le_rational_iff.mpr hd

end JobAllocation.Exact
