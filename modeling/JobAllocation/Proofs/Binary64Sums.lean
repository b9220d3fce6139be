import JobAllocation.Proofs.Binary64Quotients

/-!
# Sums and differences in binary64

No sum of times is below one of its terms, and no difference of unequal values is rounded to zero.
But a term that is too small beside a sum is lost by rounding. So a sum of times never passes 2^53
times the power of two that its terms keep below, however many they are.
-/
namespace JobAllocation.Binary64

theorem le_add_left {x d : Binary64} (hx : 0 ≤ x) (hd : 0 ≤ d) : d ≤ x + d := by
  refine (le_iff_rank hd (nonneg_add hx hd)).mpr ?_
  have hr := (nonneg_iff.mp hx).2
  have hself := rank_eq_cutoff hd
  have hle : cutoff d.rank.toNat ≤ cutoff (x.rank + d.rank).toNat := cutoff_mono (by omega)
  rw [(rank_add hx hd).2]
  omega

/-- No sum of times is below one of its terms. -/
theorem le_foldl_add_of_mem {xs : List Binary64} (hxs : ∀ x ∈ xs, 0 ≤ x) {init : Binary64}
    (hi : 0 ≤ init) {x : Binary64} (hx : x ∈ xs) : x ≤ xs.foldl (· + ·) init := by
  induction xs generalizing init with
  | nil => cases hx
  | cons y ys ih =>
    obtain ⟨hy, hys⟩ := List.forall_mem_cons.mp hxs
    have hsum := nonneg_add hi hy
    rcases List.mem_cons.mp hx with rfl | hx
    · exact Quantity.le_trans (le_add_left hi hy) (Quantity.le_foldl_add hys hsum)
    · exact ih hys hsum hx

theorem le_total {xs : List Binary64} (hxs : ∀ x ∈ xs, 0 ≤ x) {x : Binary64} (hx : x ∈ xs) :
    x ≤ Quantity.total xs := le_foldl_add_of_mem hxs LawfulQuantity.zero_le_zero hx

theorem total_eq_zero {xs : List Binary64} (h : ∀ x ∈ xs, x = 0) : Quantity.total xs = 0 := by
  induction xs with
  | nil => rfl
  | cons x xs ih =>
    obtain ⟨rfl, hxs⟩ := List.forall_mem_cons.mp h
    have hzero : (0 : Binary64) + 0 = 0 := rfl
    rw [Quantity.total, List.foldl_cons, hzero]
    exact ih hxs

/-- A power of two is halfway to the next magnitude after 2^53 times itself, and is lost. -/
theorem roundRatio_saturated (k : Nat) : roundRatio (2 ^ (k + 53) + 2 ^ k) 1 = 2 ^ (k + 53) := by
  have hunit : 0 < (2 : Nat) ^ k := Nat.two_pow_pos k
  have hpow : (2 : Nat) ^ (k + 53) = 2 ^ 53 * 2 ^ k := by rw [Nat.add_comm, Nat.pow_add]
  have hlog : Nat.log2 (2 ^ (k + 53) + 2 ^ k) = k + 53 := by
    have hdouble : (2 : Nat) ^ (k + 53 + 1) = 2 * 2 ^ (k + 53) := Nat.pow_succ'
    rw [Nat.log2_eq_iff (by omega)]
    omega
  have hspacing : spacing (2 ^ (k + 53) + 2 ^ k) = 2 * 2 ^ k := by
    rw [spacing, hlog, show k + 53 - 52 = k + 1 by omega, Nat.pow_succ']
  rw [roundRatio, Nat.div_one, hspacing, Nat.one_mul, hpow]
  generalize (2 : Nat) ^ k = unit at hunit
  have hsplit : 2 ^ 53 * unit + unit = 2 * unit * 2 ^ 52 + unit := by omega
  have hdiv : (2 ^ 53 * unit + unit) / (2 * unit) = 2 ^ 52 := by
    rw [hsplit, Nat.mul_add_div (by omega), Nat.div_eq_of_lt (by omega), Nat.add_zero]
  have hmod : (2 ^ 53 * unit + unit) % (2 * unit) = unit := by
    rw [hsplit, Nat.mul_add_mod, Nat.mod_eq_of_lt (by omega)]
  have hround : roundQuotient (2 ^ 53 * unit + unit) (2 * unit) = 2 ^ 52 := by
    rw [roundQuotient, hdiv, hmod, if_pos (.inr ⟨rfl, by decide⟩)]
  rw [hround]
  omega

theorem add_le_pow {x d : Binary64} {k : Nat} (hk : k + 53 ≤ 1024) (hx : 0 ≤ x) (hd : 0 ≤ d)
    (hxk : x ≤ ofNat (2 ^ (k + 53))) (hdk : d ≤ ofNat (2 ^ k)) :
    x + d ≤ ofNat (2 ^ (k + 53)) := by
  rw [le_ofNat_pow_iff hx hk, show k + 53 + 1074 = k + 1074 + 53 by omega] at hxk
  rw [le_ofNat_pow_iff hd (by omega)] at hdk
  have hsum {a b : Nat} (ha : x.rank ≤ a) (hb : d.rank ≤ b) : (x.rank + d.rank).toNat ≤ a + b := by
    omega
  have hround : roundRatio (x.rank + d.rank).toNat 1 ≤ 2 ^ (k + 1074 + 53) := by
    rw [← roundRatio_saturated]
    exact roundRatio_mono Nat.one_pos Nat.one_pos (Nat.mul_le_mul_right 1 (hsum hxk hdk))
  rw [le_ofNat_pow_iff (nonneg_add hx hd) hk, (rank_add hx hd).2,
    show k + 53 + 1074 = k + 1074 + 53 by omega]
  exact Int.ofNat_le.mpr (Nat.le_trans (Nat.min_le_left _ _) hround)

section Sums

variable {xs : List Binary64} {k : Nat}

theorem foldl_add_le_pow (hk : k + 53 ≤ 1024) (hxs : ∀ x ∈ xs, 0 ≤ x ∧ x ≤ ofNat (2 ^ k))
    {init : Binary64} (hi : 0 ≤ init) (hik : init ≤ ofNat (2 ^ (k + 53))) :
    xs.foldl (· + ·) init ≤ ofNat (2 ^ (k + 53)) := by
  induction xs generalizing init with
  | nil => exact hik
  | cons x xs ih =>
    obtain ⟨⟨hx, hxk⟩, hrest⟩ := List.forall_mem_cons.mp hxs
    exact ih hrest (nonneg_add hi hx) (add_le_pow hk hi hx hik hxk)

theorem total_le_pow (hk : k + 53 ≤ 1024) (hxs : ∀ x ∈ xs, 0 ≤ x ∧ x ≤ ofNat (2 ^ k)) :
    Quantity.total xs ≤ ofNat (2 ^ (k + 53)) :=
  foldl_add_le_pow hk hxs LawfulQuantity.zero_le_zero (nonneg_ofNat _)

theorem sum_le_pow (hk : k + 53 ≤ 1024) (hxs : ∀ x ∈ xs, 0 ≤ x ∧ x ≤ ofNat (2 ^ k)) :
    Quantity.sum xs ≤ ofNat (2 ^ (k + 53)) := by
  cases xs with
  | nil => exact nonneg_ofNat _
  | cons x xs =>
    obtain ⟨⟨hx, hxk⟩, hrest⟩ := List.forall_mem_cons.mp hxs
    exact foldl_add_le_pow hk hrest hx
      (Quantity.le_trans hxk (ofNat_pow_le (Nat.le_add_right k 53)))

theorem le_sum (hxs : ∀ x ∈ xs, 0 ≤ x) {x : Binary64} (hx : x ∈ xs) : x ≤ Quantity.sum xs := by
  cases xs with
  | nil => cases hx
  | cons y ys =>
    obtain ⟨hy, hys⟩ := List.forall_mem_cons.mp hxs
    rcases List.mem_cons.mp hx with rfl | hx
    · exact Quantity.le_foldl_add hys hy
    · exact le_foldl_add_of_mem hys hy hx

theorem isFinite_total (hk : k + 53 < 1024) (hxs : ∀ x ∈ xs, 0 ≤ x ∧ x ≤ ofNat (2 ^ k)) :
    (Quantity.total xs).isFinite = true :=
  isFinite_of_le (Quantity.nonneg_total fun x hx => (hxs x hx).1)
    (total_le_pow (Nat.le_of_lt hk) hxs) (isFinite_ofNat_pow hk)

theorem isFinite_sum (hk : k + 53 < 1024) (hxs : ∀ x ∈ xs, 0 ≤ x ∧ x ≤ ofNat (2 ^ k)) :
    (Quantity.sum xs).isFinite = true :=
  isFinite_of_le (Quantity.nonneg_sum fun x hx => (hxs x hx).1) (sum_le_pow (Nat.le_of_lt hk) hxs)
    (isFinite_ofNat_pow hk)

end Sums

theorem cutoff_pos {n : Nat} (h : 0 < n) : 0 < cutoff n := by
  have hone : cutoff 1 = 1 := cutoff_of_onGrid (onGrid_pow 0) limit_pos
  have hle : cutoff 1 ≤ cutoff n := cutoff_mono h
  omega

theorem neg_limit_le_rank (x : Binary64) : -(limit : Int) ≤ x.rank := by
  have hpos := limit_pos
  cases x with
  | finite s n fits =>
    have := fits.2
    simp only [rank]
    split <;> omega
  | infinite s =>
    simp only [rank]
    split <;> omega
  | undefined s =>
    simp only [rank]
    omega

theorem pos_infinite : 0 < infinite false := pos_iff.mpr ⟨rfl, Int.natCast_pos.mpr limit_pos⟩

/-- However close two values are, their difference is not rounded to zero. -/
theorem pos_sub {x y : Binary64} (h : y < x) : 0 < x - y := by
  obtain ⟨hy, hx, hr⟩ := lt_iff.mp h
  match x, y with
  | finite s a ha, finite t b hb =>
    have hneg : (finite (!t) b hb).rank = -(finite t b hb).rank := rank_neg t b hb
    obtain ⟨hdefined, hrank⟩ :=
      rank_add_finite (s := s) (t := !t) ha hb (by omega)
    refine pos_iff.mpr ⟨hdefined, ?_⟩
    change 0 < (add (finite s a ha) (finite (!t) b hb)).rank
    rw [hrank]
    exact Int.natCast_pos.mpr (cutoff_pos (by omega))
  | finite s a ha, infinite true => exact pos_infinite
  | finite s a ha, infinite false => exact absurd hr (Int.not_lt.mpr (rank_le_limit _))
  | infinite false, finite t b hb => exact pos_infinite
  | infinite false, infinite true => exact pos_infinite
  | infinite false, infinite false => exact absurd hr (Int.lt_irrefl _)
  | infinite true, _ => exact absurd hr (Int.not_lt.mpr (neg_limit_le_rank _))
  | undefined .., _ => cases hx
  | finite .., undefined .. => cases hy
  | infinite false, undefined .. => cases hy

section Differences

variable {x y z : Binary64} (hx : x.isFinite = true) (hy : 0 ≤ y) (hyx : y ≤ x)
include hx hy hyx

theorem rank_sub_of_isFinite :
    (x - y).isUndefined = false ∧ (x - y).rank = cutoff (x.rank - y.rank).toNat :=
  rank_sub (Quantity.le_trans hy hyx) hy (rank_lt_limit_of_isFinite hx) (le_iff.mp hyx).2.2

theorem nonneg_sub : 0 ≤ x - y := by
  obtain ⟨hdefined, hrank⟩ := rank_sub_of_isFinite hx hy hyx
  exact nonneg_iff.mpr ⟨hdefined, by omega⟩

theorem sub_le_self : x - y ≤ x := by
  have hnonneg := Quantity.le_trans hy hyx
  have hself := rank_eq_cutoff hnonneg
  have hle : cutoff (x.rank - y.rank).toNat ≤ cutoff x.rank.toNat :=
    cutoff_mono (by have := (nonneg_iff.mp hy).2; omega)
  rw [le_iff_rank (nonneg_sub hx hy hyx) hnonneg, (rank_sub_of_isFinite hx hy hyx).2]
  omega

theorem sub_le_sub (hxz : x ≤ z) (hz : z.isFinite = true) : x - y ≤ z - y := by
  have hyz := Quantity.le_trans hyx hxz
  rw [le_iff_rank (nonneg_sub hx hy hyx) (nonneg_sub hz hy hyz),
    (rank_sub_of_isFinite hx hy hyx).2, (rank_sub_of_isFinite hz hy hyz).2]
  have hr := (le_iff.mp hxz).2.2
  exact Int.ofNat_le.mpr (cutoff_mono (by omega))

end Differences

end JobAllocation.Binary64
