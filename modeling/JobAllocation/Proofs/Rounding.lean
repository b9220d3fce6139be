import JobAllocation.Binary64.Rounding
import Mathlib.Tactic.Common

/-!
# Rounding is monotone

A larger quotient never rounds to a smaller magnitude, and a magnitude of 53 digits rounds to
itself. Together they say that rounding never crosses a representable value.

Quotients are compared by cross products. Two quotients on one grid round in order because their
remainders are in order. Two on different grids are kept apart by the power of two between them.
-/
namespace JobAllocation.Binary64

theorem div_le_div_of_cross {a b c d : Nat} (hd : 0 < d) (h : a * d ≤ c * b) : a / b ≤ c / d := by
  rcases Nat.eq_zero_or_pos b with rfl | hb
  · simp
  · rw [Nat.le_div_iff_mul_le hd]
    have hq : a / b * b ≤ a := Nat.div_mul_le_self a b
    have hm : a / b * d * b ≤ c * b := by
      calc a / b * d * b = a / b * b * d := Nat.mul_right_comm _ _ _
        _ ≤ a * d := Nat.mul_le_mul_right d hq
        _ ≤ c * b := h
    exact Nat.le_of_mul_le_mul_right hm hb

/-- With equal integer parts, the order of the quotients is that of the remainders. -/
theorem mod_cross_of_div_eq {a b c d : Nat} (h : a * d ≤ c * b) (hq : a / b = c / d) :
    a % b * d ≤ c % d * b := by
  have ha : b * (a / b) + a % b = a := Nat.div_add_mod a b
  have hc : d * (a / b) + c % d = c := hq ▸ Nat.div_add_mod c d
  rw [← ha, ← hc, Nat.add_mul, Nat.add_mul, Nat.mul_right_comm b, Nat.mul_right_comm d,
    Nat.mul_comm b d] at h
  exact Nat.le_of_add_le_add_left h

theorem roundQuotient_mono {a b c d : Nat} (hb : 0 < b) (hd : 0 < d) (h : a * d ≤ c * b) :
    roundQuotient a b ≤ roundQuotient c d := by
  have hq := div_le_div_of_cross hd h
  rcases Nat.lt_or_eq_of_le hq with hlt | heq
  · calc roundQuotient a b ≤ a / b + 1 := roundQuotient_le a b
      _ ≤ c / d := hlt
      _ ≤ roundQuotient c d := le_roundQuotient c d
  · have hr := mod_cross_of_div_eq h heq
    unfold roundQuotient
    rw [← heq]
    split
    · split <;> omega
    · next hup =>
      split
      · next hdown =>
        -- If the smaller goes up and the larger down, both are ties, and ties go the same way.
        have hlow : b * d ≤ 2 * (a % b) * d := Nat.mul_le_mul_right d (by omega)
        have hhigh : 2 * (c % d) * b ≤ d * b := Nat.mul_le_mul_right b (by omega)
        rw [Nat.mul_assoc] at hlow hhigh
        rw [Nat.mul_comm d b] at hhigh
        have hab : 2 * (a % b) = b := by
          refine Nat.eq_of_mul_eq_mul_right hd ?_
          rw [Nat.mul_assoc]
          omega
        have hcd : 2 * (c % d) = d := by
          refine Nat.eq_of_mul_eq_mul_right hb ?_
          rw [Nat.mul_assoc, Nat.mul_comm d b]
          omega
        omega
      · exact Nat.le_refl _

theorem spacing_mono {n m : Nat} (h : n ≤ m) : spacing n ≤ spacing m := by
  rcases Nat.eq_zero_or_pos n with rfl | hn
  · exact spacing_pos m
  · have hlog : n.log2 ≤ m.log2 := by
      rw [Nat.le_log2 (by omega)]
      exact Nat.le_trans (Nat.log2_self_le (by omega)) h
    exact Nat.pow_le_pow_right (by decide) (by omega)

/-- A quotient rounds to at most the power of two above it. -/
theorem roundRatio_le (a b : Nat) : roundRatio a b ≤ 2 ^ 53 * spacing (a / b) := by
  have hs := lt_spacing (a / b)
  have hq : a / (b * spacing (a / b)) < 2 ^ 53 := by
    rw [← Nat.div_div_eq_div_mul]
    exact Nat.div_lt_of_lt_mul (by rw [Nat.mul_comm]; exact hs)
  have hr := roundQuotient_le a (b * spacing (a / b))
  exact Nat.mul_le_mul_right _ (by omega)

/-- A quotient on a wide grid rounds to at least the power of two below it. -/
theorem le_roundRatio {a b : Nat} (h : 1 < spacing (a / b)) :
    2 ^ 52 * spacing (a / b) ≤ roundRatio a b := by
  have hlog : 52 < (a / b).log2 := by
    by_contra hn
    rw [spacing, show (a / b).log2 - 52 = 0 by omega] at h
    exact absurd h (by decide)
  have hne : a / b ≠ 0 := by
    intro hz
    rw [hz] at hlog
    exact absurd hlog (by decide)
  have hpow : 2 ^ 52 * spacing (a / b) ≤ a / b := by
    rw [spacing, ← Nat.pow_add, Nat.add_sub_cancel' (Nat.le_of_lt hlog)]
    exact Nat.log2_self_le hne
  have hq : 2 ^ 52 ≤ a / (b * spacing (a / b)) := by
    rw [← Nat.div_div_eq_div_mul, Nat.le_div_iff_mul_le (spacing_pos _)]
    exact hpow
  exact Nat.mul_le_mul_right _ (Nat.le_trans hq (le_roundQuotient _ _))

theorem roundRatio_mono {a b c d : Nat} (hb : 0 < b) (hd : 0 < d) (h : a * d ≤ c * b) :
    roundRatio a b ≤ roundRatio c d := by
  have hs := spacing_mono (div_le_div_of_cross hd h)
  rcases Nat.lt_or_eq_of_le hs with hlt | heq
  · -- Different grids: the spacing at least doubles.
    have hdouble : 2 * spacing (a / b) ≤ spacing (c / d) := by
      unfold spacing at hlt ⊢
      rw [Nat.pow_lt_pow_iff_right (by decide)] at hlt
      rw [← Nat.pow_succ']
      exact Nat.pow_le_pow_right (by decide) hlt
    have hone : 1 < spacing (c / d) := by
      have := spacing_pos (a / b)
      omega
    calc roundRatio a b ≤ 2 ^ 53 * spacing (a / b) := roundRatio_le a b
      _ = 2 ^ 52 * (2 * spacing (a / b)) := by omega
      _ ≤ 2 ^ 52 * spacing (c / d) := Nat.mul_le_mul_left _ hdouble
      _ ≤ roundRatio c d := le_roundRatio hone
  · unfold roundRatio
    rw [← heq]
    refine Nat.mul_le_mul_right _ (roundQuotient_mono (Nat.mul_pos hb (spacing_pos _))
      (Nat.mul_pos hd (spacing_pos _)) ?_)
    rw [← Nat.mul_assoc, ← Nat.mul_assoc]
    exact Nat.mul_le_mul_right _ h

theorem spacing_dvd_of_onGrid {n : Nat} (h : OnGrid n) : spacing n ∣ n := by
  obtain ⟨m, k, hm, hn⟩ := h
  unfold spacing
  rcases Nat.eq_zero_or_pos n with rfl | hpos
  · exact Nat.dvd_zero _
  · rcases Nat.lt_or_ge k (n.log2 - 52) with hk | hk
    · -- More than 53 digits above `2 ^ k` are only there in a power of two.
      have hle : n ≤ 2 ^ n.log2 := by
        calc n = m * 2 ^ k := hn
          _ ≤ 2 ^ 53 * 2 ^ k := Nat.mul_le_mul_right _ hm
          _ = 2 ^ (53 + k) := (Nat.pow_add _ _ _).symm
          _ ≤ 2 ^ n.log2 := Nat.pow_le_pow_right (by decide) (by omega)
      have heq : n = 2 ^ n.log2 := Nat.le_antisymm hle (Nat.log2_self_le (by omega))
      calc 2 ^ (n.log2 - 52) ∣ 2 ^ n.log2 := Nat.pow_dvd_pow 2 (Nat.sub_le _ _)
        _ = n := heq.symm
    · have hd : 2 ^ (n.log2 - 52) ∣ m * 2 ^ k :=
        Nat.dvd_trans (Nat.pow_dvd_pow 2 hk) (Nat.dvd_mul_left _ _)
      rwa [← hn] at hd

/-- A magnitude of 53 digits rounds to itself. -/
theorem roundRatio_of_onGrid {n : Nat} (h : OnGrid n) : roundRatio n 1 = n := by
  have hd := spacing_dvd_of_onGrid h
  have hq : roundQuotient n (spacing n) = n / spacing n := by
    unfold roundQuotient
    rw [Nat.mod_eq_zero_of_dvd hd, if_pos (Or.inl (by simpa using spacing_pos n))]
  unfold roundRatio
  rw [Nat.div_one, Nat.one_mul, hq]
  exact Nat.div_mul_cancel hd

end JobAllocation.Binary64
