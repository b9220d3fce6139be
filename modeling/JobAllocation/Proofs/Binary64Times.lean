import JobAllocation.Binary64.Basic
import JobAllocation.Proofs.Rounding
import JobAllocation.Proofs.Times

/-!
# Times in binary64

The sum of two times is the rounded sum of their ranks, cut off at the end of the exponent range.
An infinity has the rank of that end, so overflow needs no cases of its own. The laws of times
follow from the monotonicity of rounding.
-/
namespace JobAllocation.Binary64

/-- The rank of a rounded magnitude, an overflow standing at the end of the exponent range. -/
def cutoff (n : Nat) : Nat := min (roundRatio n 1) limit

theorem limit_onGrid : OnGrid limit := ⟨1, 2098, by decide, by unfold limit; omega⟩

theorem cutoff_mono {n m : Nat} (h : n ≤ m) : cutoff n ≤ cutoff m := by
  have := roundRatio_mono Nat.one_pos Nat.one_pos (Nat.mul_le_mul_right 1 h)
  unfold cutoff
  omega

theorem cutoff_of_onGrid {n : Nat} (hg : OnGrid n) (hn : n ≤ limit) : cutoff n = n := by
  unfold cutoff
  rw [roundRatio_of_onGrid hg]
  omega

theorem cutoff_of_limit_le {n : Nat} (h : limit ≤ n) : cutoff n = limit := by
  have hlow := cutoff_mono h
  rw [cutoff_of_onGrid limit_onGrid (Nat.le_refl _)] at hlow
  unfold cutoff at hlow ⊢
  omega

theorem nonneg_iff {x : Binary64} : 0 ≤ x ↔ x.isUndefined = false ∧ 0 ≤ x.rank := by
  rw [le_iff]
  exact ⟨fun h => ⟨h.2.1, h.2.2⟩, fun h => ⟨rfl, h.1, h.2⟩⟩

theorem le_iff_rank {x y : Binary64} (hx : 0 ≤ x) (hy : 0 ≤ y) : x ≤ y ↔ x.rank ≤ y.rank := by
  rw [le_iff]
  exact ⟨fun h => h.2.2, fun h => ⟨(nonneg_iff.mp hx).1, (nonneg_iff.mp hy).1, h⟩⟩

theorem rank_le_limit (x : Binary64) : x.rank ≤ limit := by
  have hpos := limit_pos
  cases x with
  | finite s n h =>
    have := h.2
    simp only [rank]
    split <;> omega
  | infinite s =>
    simp only [rank]
    split <;> omega
  | undefined s =>
    simp only [rank]
    omega

theorem rank_infinite : (infinite false).rank = limit := rfl

theorem infinite_of_nonneg {s : Bool} (h : 0 ≤ infinite s) : s = false := by
  have hr := (nonneg_iff.mp h).2
  have hpos := limit_pos
  cases s with
  | false => rfl
  | true =>
    simp only [rank, ↓reduceIte] at hr
    omega

theorem rank_ofRatio (a b : Nat) :
    (ofRatio false a b).isUndefined = false ∧
      (ofRatio false a b).rank = min (roundRatio a b) limit := by
  unfold ofRatio
  split
  · next h =>
    refine ⟨rfl, ?_⟩
    simp only [rank, Bool.false_eq_true, ↓reduceIte]
    omega
  · next h =>
    refine ⟨rfl, ?_⟩
    simp only [rank, Bool.false_eq_true, ↓reduceIte]
    omega

theorem nonneg_ofRatio (a b : Nat) : 0 ≤ ofRatio false a b := by
  rw [nonneg_iff, (rank_ofRatio a b).2]
  exact ⟨(rank_ofRatio a b).1, by omega⟩

theorem one_pos : 0 < one := by
  unfold one
  exact Nat.two_pow_pos 1074

/-- An amount of work stands in the total order where its rounding does among the natural
numbers. -/
theorem place_ofNat_eq_cutoff (n : Nat) : (ofNat n).place = (cutoff (n * one) : Nat) := by
  have hplace : (ofNat n).place = (ofNat n).rank := by
    unfold ofNat ofRatio
    split <;> simp [place, rank]
  have hrank := (rank_ofRatio (n * one) 1).2
  rw [hplace, ofNat, cutoff]
  omega

/-- An amount of work of at most `2 ^ 53` instructions is not rounded. -/
theorem place_ofNat {n : Nat} (h : n ≤ 2 ^ 53) : (ofNat n).place = (n * one : Nat) := by
  have hgrid : OnGrid (n * one) := ⟨n, 1074, h, by unfold one; omega⟩
  have hpow (k m : Nat) (hk : 53 + k ≤ m) : n * 2 ^ k ≤ 2 ^ m := calc
    n * 2 ^ k ≤ 2 ^ 53 * 2 ^ k := Nat.mul_le_mul_right _ h
    _ = 2 ^ (53 + k) := (Nat.pow_add 2 53 k).symm
    _ ≤ 2 ^ m := Nat.pow_le_pow_right (by decide) hk
  have hlimit : n * one ≤ limit := by
    unfold one limit
    exact hpow 1074 2098 (by omega)
  rw [place_ofNat_eq_cutoff, cutoff_of_onGrid hgrid hlimit]

/-- A time is its own rounding. -/
theorem rank_eq_cutoff {x : Binary64} (hx : 0 ≤ x) : x.rank = cutoff x.rank.toNat := by
  have hr := (nonneg_iff.mp hx).2
  cases x with
  | finite s n h =>
    have hn : (finite s n h).rank = n := by
      simp only [rank] at hr ⊢
      split at hr <;> simp_all
    rw [hn, Int.toNat_natCast, cutoff_of_onGrid h.1 (Nat.le_of_lt h.2)]
  | infinite s =>
    obtain rfl := infinite_of_nonneg hx
    rw [rank_infinite, Int.toNat_natCast, cutoff_of_limit_le (Nat.le_refl _)]
  | undefined s => exact absurd (nonneg_iff.mp hx).1 (by simp [isUndefined])

theorem infinite_add {y : Binary64} (hy : 0 ≤ y) : add (infinite false) y = infinite false := by
  cases y with
  | finite => rfl
  | infinite t =>
    obtain rfl := infinite_of_nonneg hy
    rfl
  | undefined t => exact absurd (nonneg_iff.mp hy).1 (by simp [isUndefined])

theorem rank_add_finite {s t : Bool} {a b : Nat} (ha : OnGrid a ∧ a < limit)
    (hb : OnGrid b ∧ b < limit) (h : 0 ≤ (finite s a ha).rank + (finite t b hb).rank) :
    (add (finite s a ha) (finite t b hb)).isUndefined = false ∧
      (add (finite s a ha) (finite t b hb)).rank =
        cutoff ((finite s a ha).rank + (finite t b hb).rank).toNat := by
  have hsum : add (finite s a ha) (finite t b hb) =
      if (finite s a ha).rank + (finite t b hb).rank = 0 then zero (s && t)
      else ofRatio ((finite s a ha).rank + (finite t b hb).rank < 0)
        ((finite s a ha).rank + (finite t b hb).rank).natAbs 1 := rfl
  rw [hsum]
  generalize (finite s a ha).rank + (finite t b hb).rank = total at h ⊢
  by_cases hz : total = 0
  · rw [if_pos hz, hz]
    refine ⟨rfl, ?_⟩
    rw [Int.toNat_zero, cutoff_of_onGrid onGrid_zero (Nat.zero_le _)]
    simp [zero, rank]
  · have hsign : decide (total < 0) = false := decide_eq_false (by omega)
    rw [if_neg hz, hsign, show total.natAbs = total.toNat by omega]
    exact rank_ofRatio _ _

/-- The sum of two times is their exact sum, rounded once. -/
theorem rank_add {x y : Binary64} (hx : 0 ≤ x) (hy : 0 ≤ y) :
    (x + y).isUndefined = false ∧ (x + y).rank = cutoff (x.rank + y.rank).toNat := by
  have hxr := (nonneg_iff.mp hx).2
  have hyr := (nonneg_iff.mp hy).2
  show (x.add y).isUndefined = false ∧ (x.add y).rank = _
  -- Past an infinity the exact sum of the ranks is past the end of the range too.
  cases x with
  | undefined s => exact absurd (nonneg_iff.mp hx).1 (by simp [isUndefined])
  | infinite s =>
    obtain rfl := infinite_of_nonneg hx
    rw [infinite_add hy, rank_infinite, cutoff_of_limit_le (by omega)]
    exact ⟨rfl, rfl⟩
  | finite s a ha =>
    cases y with
    | undefined t => exact absurd (nonneg_iff.mp hy).1 (by simp [isUndefined])
    | infinite t =>
      obtain rfl := infinite_of_nonneg hy
      have hsum : add (finite s a ha) (infinite false) = infinite false := rfl
      rw [hsum, rank_infinite, cutoff_of_limit_le (by omega)]
      exact ⟨rfl, rfl⟩
    | finite t b hb => exact rank_add_finite ha hb (by omega)

theorem nonneg_add {x y : Binary64} (hx : 0 ≤ x) (hy : 0 ≤ y) : 0 ≤ x + y := by
  rw [nonneg_iff, (rank_add hx hy).2]
  exact ⟨(rank_add hx hy).1, by omega⟩

theorem nonneg_ofNat_div (n : Nat) {s : Binary64} (hf : s.isFinite = true) (hs : 0 < s) :
    0 ≤ ofNat n / s := by
  obtain ⟨-, -, hr⟩ := lt_iff.mp hs
  match s with
  | finite true b hb =>
    have h0 : rank 0 = 0 := rfl
    rw [h0] at hr
    simp only [rank, ↓reduceIte] at hr
    omega
  | finite false b hb =>
    have hb0 : b ≠ 0 := by
      rintro rfl
      exact Int.lt_irrefl 0 hr
    show 0 ≤ div (ofNat n) (finite false b hb)
    unfold ofNat ofRatio
    split
    · simp only [div, hb0, ↓reduceIte, bne_self_eq_false]
      exact nonneg_ofRatio _ _
    · exact nonneg_iff.mpr ⟨rfl, by simp [div, rank]⟩
  | infinite _ => simp [isFinite] at hf
  | undefined .. => simp [isFinite] at hf

instance : LawfulQuantity Binary64 where
  zero_le_zero := nonneg_iff.mpr ⟨rfl, Int.le_refl 0⟩
  le_total hx hy := by
    rw [le_iff_rank hx hy, le_iff_rank hy hx]
    exact Int.le_total _ _
  le_infinity {x} hx := by
    refine le_iff.mpr ⟨(nonneg_iff.mp hx).1, rfl, ?_⟩
    have : (Quantity.infinity : Binary64).rank = limit := rfl
    rw [this]
    exact rank_le_limit x
  add_le_add {x y d e} hx hxy hd hde := by
    have hy := Quantity.le_trans hx hxy
    have he := Quantity.le_trans hd hde
    rw [le_iff_rank hx hy] at hxy
    rw [le_iff_rank hd he] at hde
    refine (le_iff_rank (nonneg_add hx hd) (nonneg_add hy he)).mpr ?_
    rw [(rank_add hx hd).2, (rank_add hy he).2]
    exact Int.ofNat_le.mpr (cutoff_mono (by omega))
  le_add {x d} hx hd := by
    refine (le_iff_rank hx (nonneg_add hx hd)).mpr ?_
    have hr := (nonneg_iff.mp hd).2
    rw [(rank_add hx hd).2, rank_eq_cutoff hx]
    exact Int.ofNat_le.mpr (cutoff_mono (by rw [← rank_eq_cutoff hx]; omega))
  work_nonneg n _ hf hs := nonneg_ofNat_div n hf hs

end JobAllocation.Binary64
