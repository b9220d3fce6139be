import JobAllocation.LocalSearch.Climb
import Mathlib.Tactic.Common

/-!
# What a search keeps is determined by its placement

Between rounds a search keeps its placement, the loads and the largest of them. The loads that it
keeps after a move are those by which it has judged the move, and these were summed in the order of
jobs. So whatever moves were made, they are to the last digit the loads that a fresh sum over the
placement gives, and the search is a function of placements.
-/
namespace JobAllocation.LocalSearch

variable {T : Type} [Quantity T]

namespace Problem

variable {p : Problem T} {cap : Option Nat} {made : Nat}

theorem step?_stage (x : p.Placement) :
    (p.stage x).step? = (p.step? x).map fun (move, next) => (move, p.stage next) := by
  have hbest : p.bestNeighbourAt? (p.stage x).loads (p.stage x).makespan (p.stage x).placement =
      p.bestNeighbour? x := rfl
  rw [Stage.step?, step?, hbest]
  cases p.bestNeighbour? x with
  | none => rfl
  | some n =>
    change (if p.makespan (n.apply x) < p.makespan x then _ else _) =
      Option.map _ (if p.makespan (n.apply x) < p.makespan x then _ else _)
    split <;> rfl

namespace Stage

variable {s next : p.Stage} {move : Move T}

theorem climb_of_capped (h : capped cap made = true) : s.climb cap made = ([], s, false) := by
  rw [climb, if_pos h]

theorem climb_of_none (hc : ¬ capped cap made = true) (h : s.step? = none) :
    s.climb cap made = ([], s, true) := by
  rw [climb, if_neg hc]
  split
  · rfl
  · next h' => rw [h] at h'; contradiction

theorem climb_of_some (hc : ¬ capped cap made = true) (h : s.step? = some (move, next)) :
    s.climb cap made =
      (move :: (next.climb cap (made + 1)).1, (next.climb cap (made + 1)).2) := by
  rw [climb, if_neg hc]
  split
  · next h' => rw [h] at h'; contradiction
  · next h' =>
    rw [h] at h'
    cases h'
    rfl

end Stage

theorem descend_of_capped {x : p.Placement} (h : capped cap made = true) :
    p.descend cap made x = ([], x, false) := by
  rw [descend, if_pos h]

theorem descend_of_none {x : p.Placement} (hc : ¬ capped cap made = true) (h : p.step? x = none) :
    p.descend cap made x = ([], x, true) := by
  rw [descend, if_neg hc]
  split
  · rfl
  · next h' => rw [h] at h'; contradiction

theorem descend_of_some {x next : p.Placement} {move : Move T} (hc : ¬ capped cap made = true)
    (h : p.step? x = some (move, next)) :
    p.descend cap made x =
      (move :: (p.descend cap (made + 1) next).1, (p.descend cap (made + 1) next).2) := by
  rw [descend, if_neg hc]
  split
  · next h' => rw [h] at h'; contradiction
  · next h' =>
    rw [h] at h'
    cases h'
    rfl

/-- The search keeps nothing that its placement does not determine. -/
theorem climb_stage (cap : Option Nat) (made : Nat) (x : p.Placement) :
    (p.stage x).climb cap made =
      ((p.descend cap made x).1, p.stage (p.descend cap made x).2.1,
        (p.descend cap made x).2.2) := by
  -- Every stage that a round leaves is one at a placement again.
  induction made, x using descend.induct p cap with
  | case1 made x hc => rw [Stage.climb_of_capped hc, descend_of_capped hc]
  | case2 made x hc hnone =>
    have hstep : (p.stage x).step? = none := by rw [step?_stage, hnone]; rfl
    rw [Stage.climb_of_none hc hstep, descend_of_none hc hnone]
  | case3 made x hc move next hsome _ _ _ _ ih =>
    have hstep : (p.stage x).step? = some (move, p.stage next) := by rw [step?_stage, hsome]; rfl
    rw [Stage.climb_of_some hc hstep, descend_of_some hc hsome, ih]

end Problem

/-- The search in terms of placements alone. -/
theorem optimize_eq_descend (cap : Option Nat) (initial : Assignment) (jobs : List (Job T))
    (units : List (ExecutionUnit T)) :
    optimize cap initial jobs units =
      (Problem.ofInput jobs units).bind fun p => (p.placementOf initial).map fun x =>
        ⟨p.rebind initial (p.descend cap 0 x).2.1, p.makespan x,
          p.makespan (p.descend cap 0 x).2.1, (p.descend cap 0 x).1, (p.descend cap 0 x).2.2⟩ := by
  refine congrArg (Except.bind _) (funext fun p => ?_)
  simp only [Problem.climb_stage]
  cases p.placementOf initial <;> rfl

end JobAllocation.LocalSearch
