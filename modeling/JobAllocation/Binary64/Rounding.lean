import JobAllocation.Arithmetic

/-!
# Rounding to 53 binary digits

A finite binary64 magnitude is a whole number of units of 2^-1074. The representable ones have at
most 53 significant binary digits, so they lie on grids whose spacing doubles with every binary
place above the 53rd.

`roundRatio` rounds a quotient of natural numbers to such a magnitude, a half going to the even
neighbour. `roundRatio_onGrid` says that the result has at most 53 digits. The exponent range has
no upper end here: overflow is decided by the caller.
-/
namespace JobAllocation.Binary64

/-- The quotient `a / b` as the nearest natural number, a half going to the even neighbour. -/
def roundQuotient (a b : Nat) : Nat :=
  if 2 * (a % b) < b ∨ (2 * (a % b) = b ∧ a / b % 2 = 0) then a / b else a / b + 1

/-- The distance between the magnitudes of 53 digits around `n`. -/
def spacing (n : Nat) : Nat := 2 ^ (n.log2 - 52)

/-- At most 53 significant binary digits. -/
def OnGrid (n : Nat) : Prop := ∃ m k, m ≤ 2 ^ 53 ∧ n = m * 2 ^ k

/-- The quotient `a / b` as the nearest magnitude of 53 digits. -/
def roundRatio (a b : Nat) : Nat :=
  roundQuotient a (b * spacing (a / b)) * spacing (a / b)

theorem roundQuotient_le (a b : Nat) : roundQuotient a b ≤ a / b + 1 := by
  unfold roundQuotient
  split <;> omega

theorem le_roundQuotient (a b : Nat) : a / b ≤ roundQuotient a b := by
  unfold roundQuotient
  split <;> omega

theorem spacing_pos (n : Nat) : 0 < spacing n := Nat.two_pow_pos _

theorem lt_spacing (n : Nat) : n < 2 ^ 53 * spacing n := by
  unfold spacing
  rw [← Nat.pow_add]
  exact Nat.lt_of_lt_of_le Nat.lt_log2_self (Nat.pow_le_pow_right (by decide) (by omega))

theorem roundRatio_onGrid (a b : Nat) : OnGrid (roundRatio a b) := by
  refine ⟨roundQuotient a (b * spacing (a / b)), (a / b).log2 - 52, ?_, rfl⟩
  have hs := lt_spacing (a / b)
  have hq : a / (b * spacing (a / b)) < 2 ^ 53 := by
    rw [← Nat.div_div_eq_div_mul]
    exact Nat.div_lt_of_lt_mul (by rw [Nat.mul_comm]; exact hs)
  have := roundQuotient_le a (b * spacing (a / b))
  omega

theorem onGrid_zero : OnGrid 0 := ⟨0, 0, by decide, rfl⟩

end JobAllocation.Binary64
