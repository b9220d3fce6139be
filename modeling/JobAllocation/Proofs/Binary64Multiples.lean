import JobAllocation.Proofs.Binary64Times
import Mathlib.Algebra.Order.Ring.Int

/-!
# Multiples of a power of two

Whole multiples of one power of two have binary64 sums and differences that are not rounded, as long
as there are at most 2^53 of them.
-/
namespace JobAllocation.Binary64

theorem exists_finite {x : Binary64} (hx : 0 ≤ x) (h : x.rank < limit) :
    ∃ s n fits, x = finite s n fits := by
  cases x with
  | finite s n fits => exact ⟨s, n, fits, rfl⟩
  | infinite s =>
    obtain rfl := infinite_of_nonneg hx
    exact absurd h (Int.lt_irrefl _)
  | undefined s => exact absurd (nonneg_iff.mp hx).1 (by simp [isUndefined])

theorem rank_neg (s : Bool) (n : Nat) (fits : OnGrid n ∧ n < limit) :
    (neg (finite s n fits)).rank = -(finite s n fits).rank := by
  cases s <;> simp [neg, rank]

/-- A difference of times that is a time is the exact difference, rounded once. -/
theorem rank_sub {x y : Binary64} (hx : 0 ≤ x) (hy : 0 ≤ y) (hxl : x.rank < limit)
    (h : y.rank ≤ x.rank) :
    (x - y).isUndefined = false ∧ (x - y).rank = cutoff (x.rank - y.rank).toNat := by
  obtain ⟨s, a, ha, rfl⟩ := exists_finite hx hxl
  obtain ⟨t, b, hb, rfl⟩ := exists_finite hy (Int.lt_of_le_of_lt h hxl)
  have hneg : (finite (!t) b hb).rank = -(finite t b hb).rank := rank_neg t b hb
  have hsum := rank_add_finite (s := s) (t := !t) ha hb (by omega)
  rw [hneg, ← Int.sub_eq_add_neg] at hsum
  exact hsum

/-- The times that are whole multiples of `2 ^ k` units, up to `2 ^ 53` of them. -/
structure OnMultiples (k : Nat) (x : Binary64) : Prop where
  nonneg : 0 ≤ x
  multiple : (2 ^ k : Int) ∣ x.rank
  rank_le : x.rank ≤ 2 ^ (53 + k)

theorem onMultiples_zero (k : Nat) : OnMultiples k 0 where
  nonneg := LawfulQuantity.zero_le_zero
  multiple := Int.dvd_zero _
  rank_le := Int.le_of_lt (Int.pow_pos (by decide))

/-- A multiple that is small enough is not rounded. -/
theorem cutoff_of_multiple {k : Nat} (hk : k < 2045) {r : Int} (h0 : 0 ≤ r)
    (hd : (2 ^ k : Int) ∣ r) (hr : r ≤ 2 ^ (53 + k)) : (cutoff r.toNat : Int) = r := by
  obtain ⟨n, rfl⟩ := Int.eq_ofNat_of_zero_le h0
  obtain ⟨m, rfl⟩ : 2 ^ k ∣ n := by exact_mod_cast hd
  have hpow : 2 ^ k * m ≤ 2 ^ k * 2 ^ 53 := by
    rw [← Nat.pow_add, Nat.add_comm k]
    exact_mod_cast hr
  have hm : m ≤ 2 ^ 53 := Nat.le_of_mul_le_mul_left hpow (Nat.two_pow_pos k)
  have hlimit : 2 ^ k * m ≤ limit := by
    unfold limit
    calc 2 ^ k * m ≤ 2 ^ k * 2 ^ 53 := hpow
      _ = 2 ^ (k + 53) := (Nat.pow_add _ _ _).symm
      _ ≤ 2 ^ 2098 := Nat.pow_le_pow_right (by decide) (by omega)
  rw [Int.toNat_natCast, cutoff_of_onGrid ⟨m, k, hm, Nat.mul_comm _ _⟩ hlimit]

namespace OnMultiples

variable {k : Nat} {x y : Binary64}

theorem of_rank (hk : k < 2045) {r : Int} (h0 : 0 ≤ r) (hd : (2 ^ k : Int) ∣ r)
    (hr : r ≤ 2 ^ (53 + k)) (hx : x.isUndefined = false ∧ x.rank = cutoff r.toNat) :
    OnMultiples k x ∧ x.rank = r := by
  rw [cutoff_of_multiple hk h0 hd hr] at hx
  obtain ⟨hu, rfl⟩ := hx
  exact ⟨⟨nonneg_iff.mpr ⟨hu, h0⟩, hd, hr⟩, rfl⟩

theorem rank_lt_limit (hk : k < 2045) (hx : OnMultiples k x) : x.rank < limit := by
  refine Int.lt_of_le_of_lt hx.rank_le ?_
  unfold limit
  exact_mod_cast Nat.pow_lt_pow_right (by decide) (by omega)

theorem add (hk : k < 2045) (hx : OnMultiples k x) (hy : OnMultiples k y)
    (h : x.rank + y.rank ≤ 2 ^ (53 + k)) :
    OnMultiples k (x + y) ∧ (x + y).rank = x.rank + y.rank := by
  have h0 := Int.add_nonneg (nonneg_iff.mp hx.nonneg).2 (nonneg_iff.mp hy.nonneg).2
  exact of_rank hk h0 (Int.dvd_add hx.multiple hy.multiple) h (rank_add hx.nonneg hy.nonneg)

theorem sub (hk : k < 2045) (hx : OnMultiples k x) (hy : OnMultiples k y)
    (h : y.rank ≤ x.rank) : OnMultiples k (x - y) ∧ (x - y).rank = x.rank - y.rank := by
  have hbound : x.rank - y.rank ≤ 2 ^ (53 + k) :=
    (Int.sub_le_self _ (nonneg_iff.mp hy.nonneg).2).trans hx.rank_le
  exact of_rank hk (Int.sub_nonneg.mpr h) (Int.dvd_sub hx.multiple hy.multiple) hbound
    (rank_sub hx.nonneg hy.nonneg (hx.rank_lt_limit hk) h)

end OnMultiples
end JobAllocation.Binary64
