import JobAllocation.Offer
import JobAllocation.Pool

/-!
# Batch scheduling over completion times

Each round asks every pending job for its best offer, the earliest completion on any unit from its
arrival on. The heuristic compares those offers, the winner is committed, and the next round starts
from the later ready time of its unit. Ties go to the job with the lowest number, because the
pending jobs are kept in that order.
-/
namespace JobAllocation

inductive BatchHeuristic where
  /-- The smallest best completion time. -/
  | minMin
  /-- The largest best completion time, so that long jobs are not starved. -/
  | minMax
  /-- The earliest deadline, then the smallest best completion time. -/
  | deadlineMinMin
  deriving DecidableEq

namespace BatchHeuristic

def name : BatchHeuristic → String
  | minMin => "MinMin"
  | minMax => "MinMax"
  | deadlineMinMin => "DeadlineMinMin"

variable {T : Type} [Quantity T]

/-- Whether a job with its best offer is committed rather than another. -/
def prefers (heuristic : BatchHeuristic) (a b : Job T × Offer T) : Bool :=
  match heuristic with
  | minMin => a.2.finish < b.2.finish
  | minMax => b.2.finish < a.2.finish
  | deadlineMinMin =>
    a.1.due < b.1.due || (Quantity.Same a.1.due b.1.due && a.2.finish < b.2.finish)

/-- A job with its best offer. -/
def bestOffer (units : List (ExecutionUnit T)) (job : Job T) :
    Except (AllocationError T) (Job T × Offer T) := do
  return (job, ← earliestOffer job units job.arrival)

/-- The job that a round commits, with its offer. -/
def pick? (heuristic : BatchHeuristic) (pending : List (Job T)) (units : List (ExecutionUnit T)) :
    Except (AllocationError T) (Option (Job T × Offer T)) := do
  return Selection.best? heuristic.prefers (← pending.mapM (bestOffer units))

theorem fst_eq_of_bestOffer {units : List (ExecutionUnit T)} {job : Job T} {pick : Job T × Offer T}
    (h : bestOffer units job = .ok pick) : pick.1 = job := by
  unfold bestOffer at h
  cases ho : earliestOffer job units job.arrival <;> rw [ho] at h <;> cases h
  rfl

/-- Each job stands beside its own offer. -/
theorem map_fst_of_bestOffers {units : List (ExecutionUnit T)} {pending : List (Job T)}
    {offers : List (Job T × Offer T)} (h : pending.mapM (bestOffer units) = .ok offers) :
    offers.map (·.1) = pending := by
  induction pending generalizing offers with
  | nil =>
    cases h
    rfl
  | cons job rest ih =>
    rw [List.mapM_cons] at h
    cases hfirst : bestOffer units job with
    | error e =>
      rw [hfirst] at h
      cases h
    | ok first =>
      cases hrest : rest.mapM (bestOffer units) with
      | error e =>
        rw [hfirst, hrest] at h
        cases h
      | ok more =>
        rw [hfirst, hrest] at h
        cases h
        rw [List.map_cons, fst_eq_of_bestOffer hfirst, ih hrest]

theorem mem_of_pick? {heuristic : BatchHeuristic} {pending : List (Job T)}
    {units : List (ExecutionUnit T)} {pick : Job T × Offer T}
    (h : heuristic.pick? pending units = .ok (some pick)) : pick.1 ∈ pending := by
  unfold pick? at h
  cases ho : pending.mapM (bestOffer units) with
  | error e =>
    rw [ho] at h
    cases h
  | ok offers =>
    rw [ho] at h
    rw [← map_fst_of_bestOffers ho]
    exact List.mem_map_of_mem (Selection.mem_of_best? (Except.ok.inj h))

/-- Runs the pending jobs, and returns their completions in order of commitment with the units after
them. -/
def run (heuristic : BatchHeuristic) (pending : List (Job T)) (units : List (ExecutionUnit T)) :
    Except (AllocationError T) (List (Completion T) × List (ExecutionUnit T)) :=
  match _h : heuristic.pick? pending units with
  | .error e => .error e
  | .ok none => .ok ([], units)
  | .ok (some (job, offer)) => do
    let units := advanceUnit units offer.unit.id offer.finish
    let (completions, units) ← run heuristic (pending.eraseP (·.id == job.id)) units
    return (offer.completion job :: completions, units)
termination_by pending.length
decreasing_by
  have hm : job ∈ pending := mem_of_pick? _h
  rw [List.length_eraseP_of_mem hm (by simp)]
  have := List.length_pos_of_mem hm
  omega

def allocate (heuristic : BatchHeuristic) (pool : Pool T) :
    Except (AllocationError T) (Allocation T) := do
  pool.check
  let jobs := pool.freshJobs
  let (completions, units) ← run heuristic (jobs.mergeSort (·.id ≤ ·.id)) pool.units
  let schedule := .ofCompletions completions
  return { schedule, pool := { jobs := schedule.settle jobs, units } }

end BatchHeuristic
end JobAllocation
