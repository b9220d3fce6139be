import JobAllocation.Proofs.Choices

/-!
# Times in which work takes time

The laws of times leave room for work that takes no time at all. It always takes some: a quotient
of some work by a finite speed does not round to zero, and a sum does not round below its terms. So
a time at which work has ended is positive, and positive times that agree are one.
-/
namespace JobAllocation

/-- The laws of an arithmetic in which work takes time. -/
class StrictQuantity (T : Type) [Quantity T] : Prop
    extends LawfulQuantity T, OrderedQuantity T where
  lt_or_eq_infinity : ∀ {x : T}, 0 ≤ x → x < Quantity.infinity ∨ x = Quantity.infinity
  pos_add : ∀ {x d : T}, 0 ≤ x → 0 < d → 0 < x + d
  work_pos : ∀ {n : Nat} {s : T}, 0 < n → Quantity.isFinite s = true → 0 < s →
    0 < Quantity.ofNat n / s
  totalOrder_of_lt : ∀ {x y : T}, x < y → Quantity.totalOrder x y = .lt

section Units

variable {T : Type} [Quantity T] [StrictQuantity T]

namespace Quantity

theorem smallest_singleton {x : T} (hx : 0 ≤ x) : smallest [x] = x := by
  rw [smallest, List.foldl_cons, List.foldl_nil, smaller]
  split
  · rfl
  · next hlt =>
    rw [(StrictQuantity.lt_or_eq_infinity hx).resolve_left hlt, ite_self]

/-- The later of two times is the second if it is positive and no earlier than the first. -/
theorem larger_eq_right {x y : T} (hx : 0 ≤ x) (hle : x ≤ y) (hpos : 0 < y) : larger x y = y := by
  rw [larger_eq hx]
  split
  · rfl
  · next hlt =>
    have hge := le_of_not_lt hx (le_of_lt hpos) hlt
    exact (OrderedQuantity.eq_of_same ⟨hge, hle⟩ hpos).symm

end Quantity

theorem Working.work_pos {units : List (ExecutionUnit T)} (h : Working units)
    {unit : ExecutionUnit T} (hu : unit ∈ units) {n : Nat} (hn : 0 < n) :
    0 < Quantity.ofNat n / unit.speed :=
  StrictQuantity.work_pos hn (h.speed_finite unit hu) (h.speed_pos unit hu)

/-- A unit that is kept busy until some positive time is free from exactly then. -/
theorem ExecutionUnit.advanceTo_eq {unit : ExecutionUnit T} {time : T} (hle : unit.ready ≤ time)
    (hpos : 0 < time) (hready : 0 ≤ unit.ready) :
    unit.advanceTo time = { unit with ready := time } := by
  have hlater := Quantity.larger_eq_right hready hle hpos
  rw [Quantity.larger_eq hready] at hlater
  unfold advanceTo
  split
  · rfl
  · next hlt => rw [← hlater, if_neg hlt]

end Units

namespace Binary64

theorem pos_iff {x : Binary64} : 0 < x ↔ x.isUndefined = false ∧ 0 < x.rank := by
  rw [lt_iff]
  exact ⟨fun h => ⟨h.2.1, h.2.2⟩, fun h => ⟨rfl, h.1, h.2⟩⟩

theorem pos_ofRatio {a b : Nat} (hb : 0 < b) (h : b ≤ a) : 0 < ofRatio false a b := by
  have hone : OnGrid 1 := ⟨1, 0, by decide, rfl⟩
  have hround : roundRatio 1 1 ≤ roundRatio a b := roundRatio_mono Nat.one_pos hb (by omega)
  have hlimit := limit_pos
  rw [roundRatio_of_onGrid hone] at hround
  rw [pos_iff, (rank_ofRatio a b).2]
  exact ⟨(rank_ofRatio a b).1, by omega⟩

/-- No speed is so high that one instruction would take less than the least positive value. -/
theorem limit_le_one_mul_one : limit ≤ one * one := by
  have hpow (k m : Nat) (hk : k ≤ m + m) : (2 : Nat) ^ k ≤ 2 ^ m * 2 ^ m := calc
    2 ^ k ≤ 2 ^ (m + m) := Nat.pow_le_pow_right (by decide) hk
    _ = 2 ^ m * 2 ^ m := Nat.pow_add 2 m m
  unfold limit one
  exact hpow 2098 1074 (by decide)

theorem pos_ofNat_div {n : Nat} (hn : 0 < n) {s : Binary64} (hf : s.isFinite = true)
    (hs : 0 < s) : 0 < ofNat n / s := by
  have hr := (pos_iff.mp hs).2
  match s with
  | finite true b hb =>
    simp only [rank, ↓reduceIte] at hr
    omega
  | finite false b hb =>
    have hb0 : b ≠ 0 := by
      rintro rfl
      exact Int.lt_irrefl 0 hr
    change 0 < div (ofNat n) (finite false b hb)
    unfold ofNat ofRatio
    split
    · simp only [div, hb0, ↓reduceIte, bne_self_eq_false]
      refine pos_ofRatio (Nat.pos_of_ne_zero hb0) ?_
      have hgrid : OnGrid one := ⟨1, 1074, by decide, by unfold one; omega⟩
      have hwork : roundRatio one 1 ≤ roundRatio (n * one) 1 :=
        roundRatio_mono Nat.one_pos Nat.one_pos
          (Nat.mul_le_mul_right 1 (Nat.le_mul_of_pos_left one hn))
      rw [roundRatio_of_onGrid hgrid] at hwork
      calc b ≤ limit := Nat.le_of_lt hb.2
        _ ≤ one * one := limit_le_one_mul_one
        _ ≤ roundRatio (n * one) 1 * one := Nat.mul_le_mul_right _ hwork
    · refine pos_iff.mpr ⟨rfl, ?_⟩
      simp only [div, bne_self_eq_false, rank, Bool.false_eq_true, ↓reduceIte]
      exact Int.natCast_pos.mpr limit_pos
  | infinite _ => simp [isFinite] at hf
  | undefined .. => simp [isFinite] at hf

instance : StrictQuantity Binary64 where
  lt_or_eq_infinity {x} hx := by
    match x with
    | finite s n h =>
      refine .inl (lt_iff.mpr ⟨rfl, rfl, ?_⟩)
      change (finite s n h).rank < limit
      have := h.2
      simp only [rank]
      split <;> omega
    | infinite s => exact .inr (congrArg infinite (infinite_of_nonneg hx))
    | undefined .. => exact absurd (nonneg_iff.mp hx).1 (by simp [isUndefined])
  pos_add {x d} hx hd := by
    have hnonneg := Quantity.le_of_lt hd
    have hr := (nonneg_iff.mp hx).2
    have hpos := (pos_iff.mp hd).2
    have hle : cutoff d.rank.toNat ≤ cutoff (x.rank + d.rank).toNat := cutoff_mono (by omega)
    have hd := rank_eq_cutoff hnonneg
    rw [pos_iff, (rank_add hx hnonneg).2]
    exact ⟨(rank_add hx hnonneg).1, by omega⟩
  work_pos hn hf hs := pos_ofNat_div hn hf hs
  totalOrder_of_lt {x y} h := by
    obtain ⟨hx, hy, hr⟩ := lt_iff.mp h
    change compare x.place y.place = .lt
    rw [Int.compare_eq_lt]
    cases x <;> cases y <;> simp_all [isUndefined, place, rank] <;> grind

end Binary64

end JobAllocation
