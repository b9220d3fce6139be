import Mathlib.Tactic.Common
import JobAllocation.Selection
import JobAllocation.Quantity

/-!
# The order of times

A time is a quantity from zero on. The laws below hold of times however results are rounded: the
order is total, sums are monotone and no sum falls below its first term. Nothing is said of
differences, of undefined values or of equality, so times that agree are compared by `Same`.
-/
namespace JobAllocation

/-- The laws of an arithmetic in which times can be kept. -/
class LawfulQuantity (T : Type) [Quantity T] : Prop where
  zero_le_zero : (0 : T) ≤ 0
  le_total : ∀ {x y : T}, 0 ≤ x → 0 ≤ y → x ≤ y ∨ y ≤ x
  le_infinity : ∀ {x : T}, 0 ≤ x → x ≤ Quantity.infinity
  add_le_add : ∀ {x y d e : T}, 0 ≤ x → x ≤ y → 0 ≤ d → d ≤ e → x + d ≤ y + e
  le_add : ∀ {x d : T}, 0 ≤ x → 0 ≤ d → x ≤ x + d
  work_nonneg : ∀ (n : Nat) {s : T}, Quantity.isFinite s = true → 0 < s → 0 ≤ Quantity.ofNat n / s

namespace Quantity

variable {T : Type} [Quantity T]

theorem Same.symm {x y : T} (h : Same x y) : Same y x := ⟨h.2, h.1⟩

theorem Same.trans {x y z : T} (hxy : Same x y) (hyz : Same y z) : Same x z :=
  ⟨le_trans hxy.1 hyz.1, le_trans hyz.2 hxy.2⟩

theorem not_le_of_lt {x y : T} (h : x < y) : ¬ y ≤ x := ((lt_iff x y).mp h).2

theorem lt_of_lt_of_le {x y z : T} (hxy : x < y) (hyz : y ≤ z) : x < z :=
  (lt_iff x z).mpr ⟨le_trans (le_of_lt hxy) hyz,
    fun hzx => not_le_of_lt hxy (le_trans hyz hzx)⟩

theorem lt_of_le_of_lt {x y z : T} (hxy : x ≤ y) (hyz : y < z) : x < z :=
  (lt_iff x z).mpr ⟨le_trans hxy (le_of_lt hyz),
    fun hzx => not_le_of_lt hyz (le_trans hzx hxy)⟩

theorem smaller_eq_or (x y : T) : smaller x y = x ∨ smaller x y = y := by
  unfold smaller
  split_ifs <;> simp

theorem foldl_smaller_mem (xs : List T) (init : T) : xs.foldl smaller init ∈ init :: xs := by
  induction xs generalizing init with
  | nil => simp
  | cons a xs ih =>
    rw [List.foldl_cons]
    rcases List.mem_cons.mp (ih (smaller init a)) with h | h
    · rw [h]
      rcases smaller_eq_or init a with h | h <;> simp [h]
    · simp [h]

variable [LawfulQuantity T]

theorem le_refl {x : T} (hx : 0 ≤ x) : x ≤ x := (LawfulQuantity.le_total hx hx).elim id id

theorem Same.refl {x : T} (hx : 0 ≤ x) : Same x x := ⟨le_refl hx, le_refl hx⟩

theorem le_of_not_lt {x y : T} (hx : 0 ≤ x) (hy : 0 ≤ y) (h : ¬ x < y) : y ≤ x := by
  rcases LawfulQuantity.le_total hx hy with hxy | hyx
  · by_contra hn
    exact h ((lt_iff x y).mpr ⟨hxy, hn⟩)
  · exact hyx

theorem le_of_not_le {x y : T} (hx : 0 ≤ x) (hy : 0 ≤ y) (h : ¬ x ≤ y) : y ≤ x :=
  (LawfulQuantity.le_total hx hy).resolve_left h

theorem lt_of_not_le {x y : T} (hx : 0 ≤ x) (hy : 0 ≤ y) (h : ¬ x ≤ y) : y < x :=
  (lt_iff y x).mpr ⟨le_of_not_le hx hy h, h⟩

theorem nonneg_add {x d : T} (hx : 0 ≤ x) (hd : 0 ≤ d) : 0 ≤ x + d :=
  le_trans hx (LawfulQuantity.le_add hx hd)

theorem Same.add {x y d : T} (hx : 0 ≤ x) (hy : 0 ≤ y) (hd : 0 ≤ d) (h : Same x y) :
    Same (x + d) (y + d) :=
  ⟨LawfulQuantity.add_le_add hx h.1 hd (le_refl hd),
    LawfulQuantity.add_le_add hy h.2 hd (le_refl hd)⟩

theorem larger_eq {x : T} (hx : 0 ≤ x) (y : T) : larger x y = if x < y then y else x := by
  rw [larger, if_pos (le_refl hx)]

theorem left_le_larger {x : T} (hx : 0 ≤ x) (y : T) : x ≤ larger x y := by
  rw [larger_eq hx]
  by_cases h : x < y
  · rw [if_pos h]
    exact le_of_lt h
  · rw [if_neg h]
    exact le_refl hx

theorem right_le_larger {x y : T} (hx : 0 ≤ x) (hy : 0 ≤ y) : y ≤ larger x y := by
  rw [larger_eq hx]
  by_cases h : x < y
  · rw [if_pos h]
    exact le_refl hy
  · rw [if_neg h]
    exact le_of_not_lt hx hy h

theorem larger_le {x y z : T} (hx : 0 ≤ x) (hxz : x ≤ z) (hyz : y ≤ z) : larger x y ≤ z := by
  rw [larger_eq hx]
  split <;> assumption

theorem larger_larger {x : T} (hx : 0 ≤ x) (y : T) : larger x (larger x y) = larger x y := by
  rw [larger_eq hx y]
  by_cases h : x < y
  · rw [if_pos h, larger_eq hx, if_pos h]
  · rw [if_neg h, larger_eq hx, ite_self]

theorem larger_lt_iff {x y z : T} (hx : 0 ≤ x) (hy : 0 ≤ y) :
    larger x y < z ↔ x < z ∧ y < z := by
  constructor
  · intro h
    exact ⟨lt_of_le_of_lt (left_le_larger hx y) h, lt_of_le_of_lt (right_le_larger hx hy) h⟩
  · rintro ⟨hxz, hyz⟩
    rw [larger_eq hx]
    split <;> assumption

theorem nonneg_larger {x : T} (hx : 0 ≤ x) (y : T) : 0 ≤ larger x y :=
  le_trans hx (left_le_larger hx y)

theorem larger_le_larger {x y a b : T} (hx : 0 ≤ x) (ha : 0 ≤ a) (hxy : x ≤ y) (hab : a ≤ b) :
    larger x a ≤ larger y b := by
  have hy : 0 ≤ y := le_trans hx hxy
  have hb : 0 ≤ b := le_trans ha hab
  exact larger_le hx (le_trans hxy (left_le_larger hy b))
    (le_trans hab (right_le_larger hy hb))

theorem Same.larger {x y a b : T} (hx : 0 ≤ x) (hy : 0 ≤ y) (ha : 0 ≤ a) (hb : 0 ≤ b)
    (hxy : Same x y) (hab : Same a b) : Same (larger x a) (larger y b) :=
  ⟨larger_le_larger hx ha hxy.1 hab.1, larger_le_larger hy hb hxy.2 hab.2⟩

theorem smaller_le_left {x : T} (hx : 0 ≤ x) (y : T) : smaller x y ≤ x := by
  rw [smaller, if_pos (le_refl hx)]
  by_cases h : y < x
  · rw [if_pos h]
    exact le_of_lt h
  · rw [if_neg h]
    exact le_refl hx

theorem smaller_le_right {x y : T} (hx : 0 ≤ x) (hy : 0 ≤ y) : smaller x y ≤ y := by
  rw [smaller, if_pos (le_refl hx)]
  by_cases h : y < x
  · rw [if_pos h]
    exact le_refl hy
  · rw [if_neg h]
    exact le_of_not_lt hy hx h

/-- The scan for the smallest ends below where it began and below every value that it met. -/
theorem foldl_smaller_le {xs : List T} (hxs : ∀ x ∈ xs, 0 ≤ x) {init : T} (hi : 0 ≤ init) :
    xs.foldl smaller init ≤ init ∧ ∀ x ∈ xs, xs.foldl smaller init ≤ x := by
  induction xs generalizing init with
  | nil => exact ⟨le_refl hi, by simp⟩
  | cons a xs ih =>
    have ha := hxs a List.mem_cons_self
    have hs : 0 ≤ smaller init a := by rcases smaller_eq_or init a with h | h <;> rwa [h]
    obtain ⟨hle, hmem⟩ := ih (fun x hx => hxs x (List.mem_cons_of_mem _ hx)) hs
    refine ⟨le_trans hle (smaller_le_left hi a), ?_⟩
    intro x hx
    rcases List.mem_cons.mp hx with rfl | hx
    · exact le_trans hle (smaller_le_right hi ha)
    · exact hmem x hx

theorem nonneg_infinity : 0 ≤ (infinity : T) :=
  LawfulQuantity.le_infinity LawfulQuantity.zero_le_zero

theorem smallest_le {xs : List T} (hxs : ∀ x ∈ xs, 0 ≤ x) {x : T} (hx : x ∈ xs) :
    smallest xs ≤ x := (foldl_smaller_le hxs nonneg_infinity).2 x hx

theorem nonneg_smallest {xs : List T} (hxs : ∀ x ∈ xs, 0 ≤ x) : 0 ≤ smallest xs := by
  rcases List.mem_cons.mp (foldl_smaller_mem xs infinity) with h | h
  · rw [smallest, h]
    exact nonneg_infinity
  · exact hxs _ h

theorem exists_le_smallest {xs : List T} (hxs : ∀ x ∈ xs, 0 ≤ x) (hne : xs ≠ []) :
    ∃ x ∈ xs, x ≤ smallest xs := by
  rcases List.mem_cons.mp (foldl_smaller_mem xs infinity) with h | h
  · obtain ⟨x, hx⟩ := List.exists_mem_of_ne_nil xs hne
    refine ⟨x, hx, ?_⟩
    rw [smallest, h]
    exact LawfulQuantity.le_infinity (hxs x hx)
  · exact ⟨_, h, le_refl (hxs _ h)⟩

theorem foldl_larger_mem (xs : List T) {init : T} (hi : 0 ≤ init) :
    0 ≤ xs.foldl larger init ∧ xs.foldl larger init ∈ init :: xs := by
  induction xs generalizing init with
  | nil => exact ⟨hi, List.mem_cons_self⟩
  | cons a xs ih =>
    rw [List.foldl_cons]
    obtain ⟨hnonneg, hmem⟩ := ih (nonneg_larger hi a)
    refine ⟨hnonneg, ?_⟩
    rcases List.mem_cons.mp hmem with h | h
    · rw [h, larger_eq hi]
      by_cases hlt : init < a
      · rw [if_pos hlt]
        exact List.mem_cons_of_mem _ List.mem_cons_self
      · rw [if_neg hlt]
        exact List.mem_cons_self
    · exact List.mem_cons_of_mem _ (List.mem_cons_of_mem _ h)

/-- The scan for the largest ends above where it began and above every value that it met. -/
theorem le_foldl_larger {xs : List T} (hxs : ∀ x ∈ xs, 0 ≤ x) {init : T} (hi : 0 ≤ init) :
    init ≤ xs.foldl larger init ∧ ∀ x ∈ xs, x ≤ xs.foldl larger init := by
  induction xs generalizing init with
  | nil => exact ⟨le_refl hi, by simp⟩
  | cons a xs ih =>
    obtain ⟨hle, hmem⟩ := ih (fun x hx => hxs x (List.mem_cons_of_mem _ hx)) (nonneg_larger hi a)
    refine ⟨le_trans (left_le_larger hi a) hle, ?_⟩
    intro x hx
    rcases List.mem_cons.mp hx with rfl | hx
    · exact le_trans (right_le_larger hi (hxs x List.mem_cons_self)) hle
    · exact hmem x hx

theorem nonneg_largest (xs : List T) : 0 ≤ largest xs :=
  (foldl_larger_mem xs LawfulQuantity.zero_le_zero).1

theorem le_largest {xs : List T} (hxs : ∀ x ∈ xs, 0 ≤ x) {x : T} (hx : x ∈ xs) : x ≤ largest xs :=
  (le_foldl_larger hxs LawfulQuantity.zero_le_zero).2 x hx

theorem largest_le {xs : List T} {y : T} (hy : 0 ≤ y) (hxs : ∀ x ∈ xs, x ≤ y) : largest xs ≤ y := by
  rcases List.mem_cons.mp (foldl_larger_mem xs LawfulQuantity.zero_le_zero).2 with h | h
  · rw [largest, h]
    exact hy
  · exact hxs _ h

theorem le_foldl_add {xs : List T} (hxs : ∀ x ∈ xs, 0 ≤ x) {init : T} (hi : 0 ≤ init) :
    init ≤ xs.foldl (· + ·) init := by
  induction xs generalizing init with
  | nil => exact le_refl hi
  | cons x xs ih =>
    obtain ⟨hx, hrest⟩ := List.forall_mem_cons.mp hxs
    exact le_trans (LawfulQuantity.le_add hi hx) (ih hrest (nonneg_add hi hx))

theorem nonneg_total {xs : List T} (hxs : ∀ x ∈ xs, 0 ≤ x) : 0 ≤ total xs :=
  le_foldl_add hxs LawfulQuantity.zero_le_zero

theorem nonneg_sum {xs : List T} (hxs : ∀ x ∈ xs, 0 ≤ x) : 0 ≤ sum xs := by
  cases xs with
  | nil => exact LawfulQuantity.zero_le_zero
  | cons x xs =>
    obtain ⟨hx, hrest⟩ := List.forall_mem_cons.mp hxs
    exact le_trans hx (le_foldl_add hrest hx)

/-- Larger terms have a larger sum. -/
theorem total_map_le {A : Type} {as : List A} {f g : A → T} (h : ∀ a ∈ as, 0 ≤ f a ∧ f a ≤ g a) :
    total (as.map f) ≤ total (as.map g) := by
  have key {x y : T} (hx : 0 ≤ x) (hxy : x ≤ y) :
      (as.map f).foldl (· + ·) x ≤ (as.map g).foldl (· + ·) y := by
    induction as generalizing x y with
    | nil => exact hxy
    | cons a as ih =>
      obtain ⟨⟨hf, hfg⟩, hrest⟩ := List.forall_mem_cons.mp h
      exact ih hrest (nonneg_add hx hf) (LawfulQuantity.add_le_add hx hxy hf hfg)
  exact key LawfulQuantity.zero_le_zero LawfulQuantity.zero_le_zero

end Quantity
end JobAllocation
