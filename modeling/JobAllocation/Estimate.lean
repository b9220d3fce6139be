import JobAllocation.AllocationError

/-!
# How long work takes

The only place where an amount of work becomes a duration. Every policy, the search and the
execution of an assignment ask here, so they agree to the last digit.
-/
namespace JobAllocation

variable {T : Type} [Quantity T]

/-- The time that a unit takes for an amount of work. -/
def executionTime (work : Nat) (unit : ExecutionUnit T) : Except (AllocationError T) T :=
  if 0 < unit.speed then .ok (Quantity.ofNat work / unit.speed)
  else .error (.speedNotPositive unit.id unit.speed)

/-- When a job completes on a unit that is free for it from `start`. -/
def completionTime (job : Job T) (unit : ExecutionUnit T) (start : T) :
    Except (AllocationError T) T := do
  return start + (← executionTime job.length unit)

end JobAllocation
