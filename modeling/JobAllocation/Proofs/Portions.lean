import JobAllocation.Schedule
import Mathlib.Tactic.Common

/-!
# The portions of a job

Turns of at most one quantum cut the work of a job into portions that depend on the quantum and the
length only, not on the units or on what other jobs do in between: full quanta, then what is left.
-/
namespace JobAllocation

/-- What one turn does to the work of a job. -/
structure Portion where
  work : Nat
  remaining : Nat
  outcome : SliceOutcome

def Slice.portion {T : Type} (slice : Slice T) : Portion :=
  ⟨slice.work, slice.remaining, slice.outcome⟩

namespace Portion

/-- The next portion of a job with `left` instructions to do. -/
def next (quantum left : Nat) : Portion where
  work := min quantum left
  remaining := left - min quantum left
  outcome := if 0 < left - min quantum left then .preempted else .completed

/-- The portions of a job with `left` instructions to do. -/
def all {quantum : Nat} (hq : 0 < quantum) (left : Nat) : List Portion :=
  if 0 < left then next quantum left :: all hq (next quantum left).remaining else []
termination_by left
decreasing_by
  rw [next]
  dsimp only
  omega

variable {quantum : Nat} (hq : 0 < quantum)

@[simp] theorem all_zero : all hq 0 = [] := by
  rw [all, if_neg (Nat.lt_irrefl 0)]

theorem all_of_pos {left : Nat} (h : 0 < left) :
    all hq left = next quantum left :: all hq (next quantum left).remaining := by
  rw [all, if_pos h]

/-- The portions make up the job. -/
theorem sum_work_all (left : Nat) : ((all hq left).map (·.work)).sum = left := by
  fun_induction all hq left with
  | case1 left h ih =>
    rw [List.map_cons, List.sum_cons, ih]
    simp only [next]
    omega
  | case2 left h =>
    rw [List.map_nil, List.sum_nil]
    omega

theorem work_bounds_of_mem_all {left : Nat} {p : Portion} (hp : p ∈ all hq left) :
    1 ≤ p.work ∧ p.work ≤ quantum := by
  fun_induction all hq left with
  | case1 left h ih =>
    rcases List.mem_cons.mp hp with rfl | hp
    · simp only [next]
      omega
    · exact ih hp
  | case2 left h => simp at hp

theorem completed_iff_of_mem_all {left : Nat} {p : Portion} (hp : p ∈ all hq left) :
    p.outcome = .completed ↔ p.remaining = 0 := by
  fun_induction all hq left with
  | case1 left h ih =>
    rcases List.mem_cons.mp hp with rfl | hp
    · simp only [next]
      split
      · next hleft => simp only [reduceCtorEq, false_iff]; omega
      · next hleft => simp only [true_iff]; omega
    · exact ih hp
  | case2 left h => simp at hp

/-- What is left after a portion is what the portions up to it have not done. -/
theorem work_add_remaining {left : Nat} {front back : List Portion} {p : Portion}
    (h : all hq left = front ++ p :: back) :
    (front.map (·.work)).sum + p.work + p.remaining = left := by
  fun_induction all hq left generalizing front with
  | case1 left hleft ih =>
    rcases List.cons_eq_append_iff.mp h with ⟨rfl, hp⟩ | ⟨front, rfl, hrest⟩
    · obtain ⟨rfl, -⟩ := List.cons.inj hp
      simp only [next, List.map_nil, List.sum_nil]
      omega
    · have hle := ih hrest
      simp only [next, List.map_cons, List.sum_cons] at hle ⊢
      omega
  | case2 left hleft => simp at h

/-- Full quanta first, then one last portion that completes the job. -/
theorem exists_last {left : Nat} (h : 0 < left) :
    ∃ front last, all hq left = front ++ [last] ∧ last.outcome = .completed ∧
      ∀ p ∈ front, p.work = quantum ∧ p.outcome = .preempted := by
  fun_induction all hq left with
  | case1 left hleft ih =>
    by_cases hrest : 0 < (next quantum left).remaining
    · obtain ⟨front, last, hall, hlast, hfront⟩ := ih hrest
      refine ⟨next quantum left :: front, last, by rw [hall, List.cons_append], hlast, ?_⟩
      intro p hp
      rcases List.mem_cons.mp hp with rfl | hp
      · simp only [next] at hrest ⊢
        exact ⟨by omega, if_pos hrest⟩
      · exact hfront p hp
    · refine ⟨[], next quantum left, ?_, if_neg hrest, by simp⟩
      rw [Nat.eq_zero_of_not_pos hrest, all_zero, List.nil_append]
  | case2 left hleft => exact absurd h hleft

/-- As many portions as quanta are begun. -/
theorem length_all (left : Nat) : (all hq left).length = (left + quantum - 1) / quantum := by
  fun_induction all hq left with
  | case1 left h ih =>
    rw [List.length_cons, ih]
    simp only [next]
    by_cases hle : left ≤ quantum
    · rw [Nat.min_eq_right hle, Nat.sub_self, Nat.zero_add, Nat.div_eq_of_lt (by omega),
        show left + quantum - 1 = (left - 1) + quantum from by omega, Nat.add_div_right _ hq,
        Nat.div_eq_of_lt (by omega)]
    · rw [Nat.min_eq_left (by omega),
        show left + quantum - 1 = (left - quantum + quantum - 1) + quantum from by omega,
        Nat.add_div_right _ hq]
  | case2 left h =>
    rw [List.length_nil, Nat.div_eq_of_lt (by omega)]

end Portion
end JobAllocation
