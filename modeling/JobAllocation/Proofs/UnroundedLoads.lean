import JobAllocation.Proofs.Binary64Multiples
import JobAllocation.Proofs.ExactTimes
import JobAllocation.Proofs.MovedLoads
import Mathlib.Algebra.BigOperators.Ring.Finset
import Mathlib.Algebra.Order.BigOperators.Group.List
import Mathlib.Data.Fintype.Order
import Mathlib.Tactic.Linarith

/-!
# Loads that are not rounded

A scale is a set of quantities on which sums up to a bound, and differences, are those of rational
numbers. All rational times are on one scale. The binary64 multiples of a power of two are on one up
to 2^53 of them. If the durations of a problem are on a scale that takes all jobs on any one unit,
every move is scored at the makespan after it.
-/
namespace JobAllocation.LocalSearch

variable {T : Type} [Quantity T]

/-- Quantities that are added and taken off each other without rounding, up to a bound. -/
structure Scale (T : Type) [Quantity T] (bound : ℚ) where
  value : T → ℚ
  On : T → Prop
  zero : On 0 ∧ value 0 = 0
  nonneg : ∀ {x}, On x → 0 ≤ value x
  le : ∀ {x y}, On x → On y → value x ≤ value y → x ≤ y
  add : ∀ {x y}, On x → On y → value x + value y ≤ bound →
    On (x + y) ∧ value (x + y) = value x + value y
  sub : ∀ {x y}, On x → On y → value y ≤ value x →
    On (x - y) ∧ value (x - y) = value x - value y

namespace Scale

variable {bound : ℚ} (scale : Scale T bound)

theorem same {x y : T} (hx : scale.On x) (hy : scale.On y) (h : scale.value x = scale.value y) :
    Quantity.Same x y := ⟨scale.le hx hy h.le, scale.le hy hx h.ge⟩

theorem zero_le {x : T} (hx : scale.On x) : 0 ≤ x :=
  scale.le scale.zero.1 hx (scale.zero.2 ▸ scale.nonneg hx)

theorem sum_nonneg {xs : List T} (hxs : ∀ x ∈ xs, scale.On x) :
    0 ≤ (xs.map scale.value).sum := by
  refine List.sum_nonneg fun v hv => ?_
  obtain ⟨x, hx, rfl⟩ := List.mem_map.mp hv
  exact scale.nonneg (hxs x hx)

theorem total {xs : List T} (hxs : ∀ x ∈ xs, scale.On x)
    (hbound : (xs.map scale.value).sum ≤ bound) :
    scale.On (Quantity.total xs) ∧ scale.value (Quantity.total xs) = (xs.map scale.value).sum := by
  have key (init : T) (hi : scale.On init)
      (hle : scale.value init + (xs.map scale.value).sum ≤ bound) :
      scale.On (xs.foldl (· + ·) init) ∧
        scale.value (xs.foldl (· + ·) init) = scale.value init + (xs.map scale.value).sum := by
    clear hbound
    induction xs generalizing init with
    | nil => exact ⟨hi, by simp⟩
    | cons x xs ih =>
      have hrest : ∀ y ∈ xs, scale.On y := fun y hy => hxs y (List.mem_cons_of_mem _ hy)
      have hsum := scale.sum_nonneg hrest
      rw [List.map_cons, List.sum_cons] at hle
      obtain ⟨hon, hvalue⟩ := scale.add hi (hxs x List.mem_cons_self) (by linarith)
      obtain ⟨hfold, hfoldValue⟩ := ih hrest (init + x) hon (by linarith)
      exact ⟨hfold, by rw [List.foldl_cons, hfoldValue, hvalue, List.map_cons, List.sum_cons,
        add_assoc]⟩
  obtain ⟨hzero, hzeroValue⟩ := scale.zero
  have h := key 0 hzero (by rw [hzeroValue, zero_add]; exact hbound)
  rwa [hzeroValue, zero_add] at h

end Scale

namespace Problem

/-- All durations are on the scale, and it takes all jobs together on any one unit. -/
structure Fits (p : Problem T) {bound : ℚ} (scale : Scale T bound) : Prop where
  duration_on : ∀ job ∈ p.jobs, ∀ u, scale.On (p.duration job u)
  total_le : ∀ u, (p.jobs.map fun job => scale.value (p.duration job u)).sum ≤ bound

namespace Fits

variable {p : Problem T} {bound : ℚ} {scale : Scale T bound} {x : p.Placement} {n : p.Neighbour}

theorem timed (h : p.Fits scale) : p.Timed := fun job hj u => scale.zero_le (h.duration_on job hj u)

theorem sum_le (h : p.Fits scale) (u : p.Position) {jobs : List (Job T)}
    (hjobs : jobs.Sublist p.jobs) :
    (jobs.map fun job => scale.value (p.duration job u)).sum ≤ bound := by
  have hnonneg : ∀ v ∈ p.jobs.map fun job => scale.value (p.duration job u), 0 ≤ v := by
    intro v hv
    obtain ⟨job, hj, rfl⟩ := List.mem_map.mp hv
    exact scale.nonneg (h.duration_on job hj u)
  exact ((hjobs.map _).sum_le_sum hnonneg).trans (h.total_le u)

/-- The load of a unit is the sum of the durations of its jobs, not rounded. -/
theorem load (h : p.Fits scale) (hlen : x.length = p.jobs.length) (u : p.Position) :
    scale.On (p.load x u) ∧ scale.value (p.load x u) =
      ((p.jobsOn x u).map fun job => scale.value (p.duration job u)).sum := by
  have hjobs := jobsOn_sublist hlen u
  have hon : ∀ d ∈ (p.jobsOn x u).map (p.duration · u), scale.On d := by
    intro d hd
    obtain ⟨job, hj, rfl⟩ := List.mem_map.mp hd
    exact h.duration_on job (hjobs.subset hj) u
  have hmap : ((p.jobsOn x u).map (p.duration · u)).map scale.value =
      (p.jobsOn x u).map fun job => scale.value (p.duration job u) := by
    rw [List.map_map]
    rfl
  have htotal := scale.total hon (hmap ▸ h.sum_le u hjobs)
  rwa [hmap] at htotal

theorem same_source (h : p.Fits scale) (hlen : x.length = p.jobs.length) (hn : n.Moves x) :
    Quantity.Same (p.load x n.source - p.duration n.job n.source)
      (p.load (n.apply x) n.source) := by
  obtain ⟨front, back, hbefore, hafter⟩ := hn.jobsOn_source
  obtain ⟨hload, hvalue⟩ := h.load hlen n.source
  obtain ⟨hlater, hlaterValue⟩ := h.load ((n.length_apply x).trans hlen) n.source
  have hjob := h.duration_on n.job (List.mem_of_getElem? hn.job_at) n.source
  have hrest := scale.nonneg hlater
  simp only [hbefore, List.map_append, List.map_cons, List.sum_append, List.sum_cons] at hvalue
  simp only [hafter, List.map_append, List.sum_append] at hlaterValue
  obtain ⟨hsub, hsubValue⟩ := scale.sub hload hjob (by linarith)
  exact scale.same hsub hlater (by linarith)

theorem same_target (h : p.Fits scale) (hlen : x.length = p.jobs.length) (hn : n.Moves x) :
    Quantity.Same (p.load x n.target + p.duration n.job n.target)
      (p.load (n.apply x) n.target) := by
  obtain ⟨front, back, hbefore, hafter⟩ := hn.jobsOn_target
  obtain ⟨hload, hvalue⟩ := h.load hlen n.target
  obtain ⟨hlater, hlaterValue⟩ := h.load ((n.length_apply x).trans hlen) n.target
  have hjob := h.duration_on n.job (List.mem_of_getElem? hn.job_at) n.target
  simp only [hbefore, List.map_append, List.sum_append] at hvalue
  simp only [hafter, List.map_append, List.map_cons, List.sum_append, List.sum_cons] at hlaterValue
  have hroom := h.sum_le n.target (jobsOn_sublist ((n.length_apply x).trans hlen) n.target)
  simp only [hafter, List.map_append, List.map_cons, List.sum_append, List.sum_cons] at hroom
  obtain ⟨hadd, haddValue⟩ := scale.add hload hjob (by linarith)
  exact scale.same hadd hlater (by linarith)

/-- Every move is scored at the makespan after it. -/
theorem same_score [LawfulQuantity T] (h : p.Fits scale) (hlen : x.length = p.jobs.length) :
    ∀ n ∈ p.neighbours x, Quantity.Same n.score (p.makespan (n.apply x)) := by
  intro n hmem
  have hn := mem_neighbours_iff.mp hmem
  exact hn.same_score h.timed hlen (h.same_source hlen hn) (h.same_target hlen hn)

end Fits
end Problem

/-- All rational times. -/
def rationalScale (bound : ℚ) : Scale Exact bound where
  value
    | .rational q => q
    | .never => 0
  On x := ∃ q : ℚ, 0 ≤ q ∧ x = .rational q
  zero := ⟨⟨0, le_rfl, rfl⟩, rfl⟩
  nonneg := by
    rintro _ ⟨q, hq, rfl⟩
    exact hq
  le := by
    rintro _ _ ⟨q, -, rfl⟩ ⟨r, -, rfl⟩ h
    exact Exact.rational_le_iff.mpr h
  add := by
    rintro _ _ ⟨q, hq, rfl⟩ ⟨r, hr, rfl⟩ -
    exact ⟨⟨q + r, add_nonneg hq hr, rfl⟩, rfl⟩
  sub := by
    rintro _ _ ⟨q, -, rfl⟩ ⟨r, -, rfl⟩ h
    exact ⟨⟨q - r, sub_nonneg.mpr h, rfl⟩, rfl⟩

/-- Rational times leave room for all jobs. -/
theorem Poses.exists_fits {jobs : List (Job Exact)} {units : List (ExecutionUnit Exact)}
    {p : Problem Exact} (h : Poses jobs units p) :
    ∃ bound, p.Fits (rationalScale bound) := by
  obtain ⟨bound, hbound⟩ := Finite.exists_le fun u : p.Position =>
    (p.jobs.map fun job => (rationalScale 0).value (p.duration job u)).sum
  refine ⟨bound, fun job _ u => ?_, hbound⟩
  exact Exact.exists_work job.length (h.speed_pos _ (List.get_mem _ _))

/-- The binary64 times that are whole multiples of `2 ^ k` units, up to `2 ^ 53` of them. -/
def multiplesScale {k : Nat} (hk : k < 2045) :
    Scale Binary64 ((2 ^ (53 + k) : Int) : ℚ) where
  value x := x.rank
  On := Binary64.OnMultiples k
  zero := ⟨Binary64.onMultiples_zero k, rfl⟩
  nonneg {x} hx := by exact_mod_cast (Binary64.nonneg_iff.mp hx.nonneg).2
  le hx hy h := (Binary64.le_iff_rank hx.nonneg hy.nonneg).mpr (by exact_mod_cast h)
  add {x y} hx hy h := by
    obtain ⟨hon, hrank⟩ := hx.add hk hy (by exact_mod_cast h)
    exact ⟨hon, by rw [hrank]; push_cast; rfl⟩
  sub {x y} hx hy h := by
    obtain ⟨hon, hrank⟩ := hx.sub hk hy (by exact_mod_cast h)
    exact ⟨hon, by rw [hrank]; push_cast; rfl⟩

/-- Every job takes a whole number of steps of `2 ^ k` units on every unit, and all jobs together at
most `2 ^ 53` steps on any one. -/
structure Unrounded (k : Nat) (jobs : List (Job Binary64))
    (units : List (ExecutionUnit Binary64)) : Prop where
  small : k < 2045
  multiple : ∀ job ∈ jobs, ∀ unit ∈ units,
    (2 ^ k : Int) ∣ (Quantity.ofNat job.length / unit.speed).rank
  total_le : ∀ unit ∈ units,
    (jobs.map fun job => (Quantity.ofNat job.length / unit.speed).rank).sum ≤ 2 ^ (53 + k)

theorem Poses.duration_mem {jobs : List (Job T)} {units : List (ExecutionUnit T)} {p : Problem T}
    (h : Poses jobs units p) (u : p.Position) : ∃ unit ∈ units, ∀ job : Job T,
      p.duration job u = Quantity.ofNat job.length / unit.speed :=
  ⟨p.units.get u, h.units_perm.subset (List.get_mem _ _), fun _ => rfl⟩

namespace Unrounded

variable {k : Nat} {jobs : List (Job Binary64)} {units : List (ExecutionUnit Binary64)}
  {p : Problem Binary64}

theorem sum_le (h : Unrounded k jobs units) (hp : Poses jobs units p) (u : p.Position) :
    (p.jobs.map fun job => (p.duration job u).rank).sum ≤ 2 ^ (53 + k) := by
  obtain ⟨unit, hu, hd⟩ := hp.duration_mem u
  have hperm := hp.jobs_perm.map fun job => (p.duration job u).rank
  rw [hperm.sum_eq]
  simp only [hd]
  exact h.total_le unit hu

theorem fits (h : Unrounded k jobs units) (hp : Poses jobs units p) (ht : p.Timed) :
    p.Fits (multiplesScale h.small) := by
  have hrank : ∀ job ∈ p.jobs, ∀ u, 0 ≤ (p.duration job u).rank := fun job hj u =>
    (Binary64.nonneg_iff.mp (ht job hj u)).2
  refine ⟨fun job hj u => ⟨ht job hj u, ?_, ?_⟩, fun u => ?_⟩
  · obtain ⟨unit, hu, hd⟩ := hp.duration_mem u
    rw [hd]
    exact h.multiple job (hp.jobs_perm.subset hj) unit hu
  · have hmem := List.mem_map_of_mem (f := fun job => (p.duration job u).rank) hj
    refine (List.single_le_sum (fun r hr => ?_) _ hmem).trans (h.sum_le hp u)
    obtain ⟨other, ho, rfl⟩ := List.mem_map.mp hr
    exact hrank other ho u
  · have hcast := (Int.cast_le (R := ℚ)).mpr (h.sum_le hp u)
    rwa [Int.cast_list_sum, List.map_map] at hcast

end Unrounded

end JobAllocation.LocalSearch
