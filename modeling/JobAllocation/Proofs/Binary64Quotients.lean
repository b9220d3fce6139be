import JobAllocation.Proofs.CleanReports
import JobAllocation.Proofs.StrictTimes

/-!
# Quotients in binary64

The quotient of a finite time by a positive finite speed is the exact quotient, rounded once and cut
off at the end of the exponent range. So it grows with the time and shrinks with the speed.
-/
namespace JobAllocation.Binary64

theorem isFinite_iff {x : Binary64} (hx : 0 ≤ x) : x.isFinite = true ↔ x.rank < limit := by
  refine ⟨rank_lt_limit_of_isFinite, fun h => ?_⟩
  obtain ⟨s, n, fits, rfl⟩ := exists_finite hx h
  rfl

theorem isFinite_of_le {x y : Binary64} (hx : 0 ≤ x) (hxy : x ≤ y) (hy : y.isFinite = true) :
    x.isFinite = true :=
  (isFinite_iff hx).mpr (Int.lt_of_le_of_lt (le_iff.mp hxy).2.2 (rank_lt_limit_of_isFinite hy))

theorem eq_infinite {x : Binary64} (hx : 0 ≤ x) (h : x.isFinite ≠ true) : x = infinite false := by
  cases x with
  | finite => exact absurd rfl h
  | infinite s => rw [infinite_of_nonneg hx]
  | undefined s => exact absurd (nonneg_iff.mp hx).1 (by simp [isUndefined])

theorem nonneg_ofNat (n : Nat) : 0 ≤ ofNat n := nonneg_ofRatio _ _

theorem rank_ofNat (n : Nat) : (ofNat n).rank = cutoff (n * one) := by
  rw [ofNat, (rank_ofRatio (n * one) 1).2, cutoff]

theorem ofNat_le_ofNat {n m : Nat} (h : n ≤ m) : ofNat n ≤ ofNat m := by
  rw [le_iff_rank (nonneg_ofNat n) (nonneg_ofNat m), rank_ofNat, rank_ofNat]
  exact Int.ofNat_le.mpr (cutoff_mono (Nat.mul_le_mul_right one h))

theorem onGrid_pow (k : Nat) : OnGrid (2 ^ k) := ⟨1, k, by decide, (Nat.one_mul _).symm⟩

theorem pow_le_limit {k : Nat} (h : k ≤ 2098) : 2 ^ k ≤ limit := by
  have hpow (m : Nat) (h : k ≤ m) : (2 : Nat) ^ k ≤ 2 ^ m := Nat.pow_le_pow_right (by decide) h
  unfold limit
  exact hpow 2098 h

theorem pow_lt_limit {k : Nat} (h : k < 2098) : 2 ^ k < limit := by
  have hpow (m : Nat) (h : k < m) : (2 : Nat) ^ k < 2 ^ m := Nat.pow_lt_pow_right (by decide) h
  unfold limit
  exact hpow 2098 h

theorem cutoff_pow {k : Nat} (h : k ≤ 2098) : cutoff (2 ^ k) = 2 ^ k :=
  cutoff_of_onGrid (onGrid_pow k) (pow_le_limit h)

theorem mul_one_eq_pow (k : Nat) : 2 ^ k * one = 2 ^ (k + 1074) := by
  have hpow (m : Nat) : (2 : Nat) ^ k * 2 ^ m = 2 ^ (k + m) := (Nat.pow_add 2 k m).symm
  unfold one
  exact hpow 1074

/-- A power of two is not rounded. -/
theorem rank_ofNat_pow {k : Nat} (h : k ≤ 1024) :
    (ofNat (2 ^ k)).rank = (2 ^ (k + 1074) : Nat) := by
  rw [rank_ofNat, mul_one_eq_pow, cutoff_pow (by omega)]

theorem isFinite_ofNat_pow {k : Nat} (h : k < 1024) : (ofNat (2 ^ k)).isFinite = true := by
  rw [isFinite_iff (nonneg_ofNat _), rank_ofNat_pow (Nat.le_of_lt h)]
  exact Int.ofNat_lt.mpr (pow_lt_limit (by omega))

theorem isFinite_ofNat {n k : Nat} (hn : n ≤ 2 ^ k) (hk : k < 1024) :
    (ofNat n).isFinite = true :=
  isFinite_of_le (nonneg_ofNat n) (ofNat_le_ofNat hn) (isFinite_ofNat_pow hk)

theorem le_ofNat_pow_iff {x : Binary64} (hx : 0 ≤ x) {k : Nat} (hk : k ≤ 1024) :
    x ≤ ofNat (2 ^ k) ↔ x.rank ≤ (2 ^ (k + 1074) : Nat) := by
  rw [le_iff_rank hx (nonneg_ofNat _), rank_ofNat_pow hk]

theorem ofNat_pow_le {k m : Nat} (h : k ≤ m) : ofNat (2 ^ k) ≤ ofNat (2 ^ m) :=
  ofNat_le_ofNat (Nat.pow_le_pow_right (by decide) h)

theorem pos_ofNat {n : Nat} (h : 0 < n) : 0 < ofNat n :=
  pos_ofRatio Nat.one_pos (Nat.mul_pos h one_pos)

/-- The rank of a quotient of times with these ranks. -/
def quotient (a b : Nat) : Nat := min (roundRatio (a * one) b) limit

theorem quotient_mono {a b c d : Nat} (hb : 0 < b) (hd : 0 < d) (hac : a ≤ c) (hdb : d ≤ b) :
    quotient a b ≤ quotient c d := by
  have hcross : a * one * d ≤ c * one * b :=
    Nat.mul_le_mul (Nat.mul_le_mul_right one hac) hdb
  have := roundRatio_mono hb hd hcross
  unfold quotient
  omega

/-- A positive finite value is its magnitude. -/
theorem exists_pos_finite {s : Binary64} (hf : s.isFinite = true) (hs : 0 < s) :
    ∃ b fits, 0 < b ∧ s = finite false b fits := by
  have hr := (pos_iff.mp hs).2
  cases s with
  | finite t b fits =>
    cases t with
    | true =>
      simp only [rank, ↓reduceIte] at hr
      omega
    | false => exact ⟨b, fits, Int.natCast_pos.mp hr, rfl⟩
  | infinite => cases hf
  | undefined => cases hf

theorem infinite_div {s : Binary64} (hf : s.isFinite = true) (hs : 0 < s) :
    infinite false / s = infinite false := by
  obtain ⟨b, fits, -, rfl⟩ := exists_pos_finite hf hs
  rfl

theorem roundRatio_zero {b : Nat} (hb : 0 < b) : roundRatio 0 b = 0 := by
  have hle : roundRatio 0 b ≤ roundRatio 0 1 := roundRatio_mono hb Nat.one_pos (by omega)
  rw [roundRatio_of_onGrid onGrid_zero] at hle
  exact Nat.le_zero.mp hle

theorem rank_ofRatio_zero (s : Bool) {b : Nat} (hb : 0 < b) :
    (ofRatio s 0 b).isUndefined = false ∧ (ofRatio s 0 b).rank = 0 := by
  have hfits : roundRatio 0 b < limit := by
    rw [roundRatio_zero hb]
    exact limit_pos
  unfold ofRatio
  rw [dif_pos hfits]
  simp [isUndefined, rank, roundRatio_zero hb]

theorem finite_div (s : Bool) {a b : Nat} (ha : OnGrid a ∧ a < limit) (hb : OnGrid b ∧ b < limit)
    (h : b ≠ 0) : finite s a ha / finite false b hb = ofRatio s (a * one) b := by
  change (if b = 0 then _ else ofRatio (s != false) (a * one) b) = _
  rw [if_neg h, Bool.bne_false]

/-- The quotient of two times is the exact quotient, rounded once. -/
theorem rank_div {x s : Binary64} (hx : 0 ≤ x) (hxf : x.isFinite = true) (hsf : s.isFinite = true)
    (hs : 0 < s) :
    (x / s).isUndefined = false ∧ (x / s).rank = quotient x.rank.toNat s.rank.toNat := by
  obtain ⟨b, fits, hb, rfl⟩ := exists_pos_finite hsf hs
  obtain ⟨t, a, ha, rfl⟩ := exists_finite hx (rank_lt_limit_of_isFinite hxf)
  rw [finite_div t ha fits (Nat.ne_of_gt hb)]
  have hxr := (nonneg_iff.mp hx).2
  cases t with
  | false => exact rank_ofRatio (a * one) b
  | true =>
    -- The only time with a minus sign is zero.
    obtain rfl : a = 0 := by
      simp only [rank, ↓reduceIte] at hxr
      omega
    have hzero : quotient 0 b = 0 := by
      rw [quotient, Nat.zero_mul, roundRatio_zero hb, Nat.zero_min]
    rw [Nat.zero_mul]
    exact ⟨(rank_ofRatio_zero true hb).1, (rank_ofRatio_zero true hb).2.trans
      (congrArg Nat.cast hzero.symm)⟩

theorem nonneg_div {x s : Binary64} (hx : 0 ≤ x) (hsf : s.isFinite = true) (hs : 0 < s) :
    0 ≤ x / s := by
  by_cases hxf : x.isFinite = true
  · obtain ⟨hdefined, hrank⟩ := rank_div hx hxf hsf hs
    exact nonneg_iff.mpr ⟨hdefined, by omega⟩
  · rw [eq_infinite hx hxf, infinite_div hsf hs]
    exact Quantity.nonneg_infinity

theorem isFinite_of_isFinite_div {x s : Binary64} (hx : 0 ≤ x) (hsf : s.isFinite = true)
    (hs : 0 < s) (h : (x / s).isFinite = true) : x.isFinite = true := by
  by_contra hxf
  rw [eq_infinite hx hxf, infinite_div hsf hs] at h
  cases h

/-- A larger amount at a lower speed takes longer. -/
theorem div_le_div {x y s t : Binary64} (hx : 0 ≤ x) (hxy : x ≤ y) (hsf : s.isFinite = true)
    (ht : 0 < t) (hts : t ≤ s) : x / s ≤ y / t := by
  have hy := Quantity.le_trans hx hxy
  have hs := Quantity.lt_of_lt_of_le ht hts
  have htf := isFinite_of_le (Quantity.le_of_lt ht) hts hsf
  by_cases hyf : y.isFinite = true
  · have hxf := isFinite_of_le hx hxy hyf
    rw [le_iff_rank (nonneg_div hx hsf hs) (nonneg_div hy htf ht), (rank_div hx hxf hsf hs).2,
      (rank_div hy hyf htf ht).2]
    have hxr := (le_iff.mp hxy).2.2
    have hsr := (le_iff.mp hts).2.2
    have htr := (pos_iff.mp ht).2
    exact Int.ofNat_le.mpr (quotient_mono (by omega) (by omega) (by omega) (by omega))
  · rw [eq_infinite hy hyf, infinite_div htf ht]
    exact LawfulQuantity.le_infinity (nonneg_div hx hsf hs)

/-- A part is at most the whole. -/
theorem div_le_one {x y : Binary64} (hx : 0 ≤ x) (hxy : x ≤ y) (hyf : y.isFinite = true)
    (hy : 0 < y) : x / y ≤ ofNat 1 := by
  have hxf := isFinite_of_le hx hxy hyf
  have hxr := (le_iff.mp hxy).2.2
  have hyr := (pos_iff.mp hy).2
  have hround : roundRatio (x.rank.toNat * one) y.rank.toNat ≤ roundRatio one 1 :=
    roundRatio_mono (by omega) Nat.one_pos (by
      rw [Nat.mul_one, Nat.mul_comm one]
      exact Nat.mul_le_mul_right one (by omega))
  rw [le_iff_rank (nonneg_div hx hyf hy) (nonneg_ofNat 1), (rank_div hx hxf hyf hy).2, rank_ofNat,
    Nat.one_mul]
  unfold quotient cutoff
  omega

theorem roundRatio_pow {m n : Nat} (h : n ≤ m) : roundRatio (2 ^ m) (2 ^ n) = 2 ^ (m - n) := by
  have hcross : (2 : Nat) ^ m * 1 = 2 ^ (m - n) * 2 ^ n := by
    rw [Nat.mul_one, ← Nat.pow_add, Nat.sub_add_cancel h]
  have hself : roundRatio (2 ^ (m - n)) 1 = 2 ^ (m - n) := roundRatio_of_onGrid (onGrid_pow _)
  refine Nat.le_antisymm ?_ ?_
  · exact hself ▸ roundRatio_mono (Nat.two_pow_pos n) Nat.one_pos (Nat.le_of_eq hcross)
  · exact hself ▸ roundRatio_mono Nat.one_pos (Nat.two_pow_pos n) (Nat.le_of_eq hcross.symm)

/-- A quotient of powers of two is not rounded. -/
theorem rank_div_pow {x y : Binary64} {m n : Nat} (hx : 0 ≤ x) (hxf : x.isFinite = true)
    (hyf : y.isFinite = true) (hy : 0 < y) (hm : x.rank = (2 ^ m : Nat))
    (hn : y.rank = (2 ^ n : Nat)) (hle : n ≤ m + 1074) (hlimit : m + 1074 - n ≤ 2098) :
    (x / y).rank = (2 ^ (m + 1074 - n) : Nat) := by
  have hfits : (2 : Nat) ^ (m + 1074 - n) ≤ limit := pow_le_limit hlimit
  rw [(rank_div hx hxf hyf hy).2, hm, hn, Int.toNat_natCast, Int.toNat_natCast, quotient,
    mul_one_eq_pow, roundRatio_pow hle, Nat.min_eq_left hfits]

/-- The duration of one instruction at a speed of a power of two. -/
theorem rank_instruction {q : Nat} (hq : q < 1024) :
    0 < ofNat 1 / ofNat (2 ^ q) ∧ (ofNat 1 / ofNat (2 ^ q)).isFinite = true ∧
      (ofNat 1 / ofNat (2 ^ q)).rank = (2 ^ (1074 - q) : Nat) := by
  have hspeed := isFinite_ofNat_pow hq
  have hpos : 0 < ofNat (2 ^ q) := pos_ofNat (Nat.two_pow_pos q)
  have hone : (ofNat 1).rank = (2 ^ (0 + 1074) : Nat) := rank_ofNat_pow (k := 0) (by decide)
  have hrank := rank_div_pow (nonneg_ofNat 1) (isFinite_ofNat_pow (k := 0) (by decide)) hspeed hpos
    hone (rank_ofNat_pow (Nat.le_of_lt hq)) (by omega) (by omega)
  rw [show 0 + 1074 + 1074 - (q + 1074) = 1074 - q by omega] at hrank
  have hquotient : 0 < ofNat 1 / ofNat (2 ^ q) := pos_ofNat_div Nat.one_pos hspeed hpos
  refine ⟨hquotient, (isFinite_iff (Quantity.le_of_lt hquotient)).mpr ?_, hrank⟩
  rw [hrank]
  exact Int.ofNat_lt.mpr (pow_lt_limit (by omega))

theorem div_le_pow {x y : Binary64} {k q : Nat} (hx : 0 ≤ x) (hxk : x ≤ ofNat (2 ^ k))
    (hyf : y.isFinite = true) (hq : ofNat 1 / ofNat (2 ^ q) ≤ y) (hkq : k + q < 1024) :
    x / y ≤ ofNat (2 ^ (k + q)) := by
  obtain ⟨hpos, hfinite, hrank⟩ := rank_instruction (q := q) (by omega)
  have hkf : (ofNat (2 ^ k)).isFinite = true := isFinite_ofNat_pow (by omega)
  have hlargest := rank_div_pow (nonneg_ofNat _) hkf hfinite hpos (rank_ofNat_pow (by omega)) hrank
    (by omega) (by omega)
  rw [show k + 1074 + 1074 - (1074 - q) = k + q + 1074 by omega] at hlargest
  refine Quantity.le_trans (div_le_div hx hxk hyf hpos hq) ?_
  rw [le_ofNat_pow_iff (nonneg_div (nonneg_ofNat _) hfinite hpos) (by omega), hlargest]

theorem div_one_le {x : Binary64} (hx : 0 ≤ x) (hxf : x.isFinite = true) : x / ofNat 1 ≤ x := by
  have honef : (ofNat 1).isFinite = true := isFinite_ofNat_pow (k := 0) (by decide)
  have hone : (ofNat 1).rank = one := by
    rw [rank_ofNat, Nat.one_mul, cutoff_of_onGrid ⟨1, 1074, by decide, by unfold one; omega⟩]
    exact Nat.one_mul one ▸ mul_one_eq_pow 0 ▸ pow_le_limit (by decide)
  have hself := rank_eq_cutoff hx
  have hround : roundRatio (x.rank.toNat * one) one ≤ roundRatio x.rank.toNat 1 :=
    roundRatio_mono one_pos Nat.one_pos (by rw [Nat.mul_one])
  rw [le_iff_rank (nonneg_div hx honef (pos_ofNat Nat.one_pos)) hx,
    (rank_div hx hxf honef (pos_ofNat Nat.one_pos)).2, hone, Int.toNat_natCast]
  unfold quotient
  unfold cutoff at hself
  omega

/-- The mean of some values is finite if and only if their sum is. -/
theorem isFinite_div_ofNat_iff {x : Binary64} (hx : 0 ≤ x) {n : Nat} (hn : 0 < n) :
    (x / ofNat n).isFinite = true ↔ x.isFinite = true := by
  have hpos := pos_ofNat hn
  by_cases hcount : (ofNat n).isFinite = true
  · refine ⟨isFinite_of_isFinite_div hx hcount hpos, fun hxf => ?_⟩
    have hle : x / ofNat n ≤ x / ofNat 1 :=
      div_le_div hx (Quantity.le_refl hx) hcount (pos_ofNat Nat.one_pos) (ofNat_le_ofNat hn)
    exact isFinite_of_le (nonneg_div hx hcount hpos)
      (Quantity.le_trans hle (div_one_le hx hxf)) hxf
  · -- Nothing is left of a finite sum, and an infinite one has no mean.
    rw [eq_infinite (nonneg_ofNat n) hcount]
    cases x with
    | finite s a ha => exact iff_of_true rfl rfl
    | infinite s => exact iff_of_false Bool.false_ne_true Bool.false_ne_true
    | undefined s => exact iff_of_false Bool.false_ne_true Bool.false_ne_true

end JobAllocation.Binary64
