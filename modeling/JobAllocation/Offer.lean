import JobAllocation.Estimate
import JobAllocation.Schedule
import JobAllocation.Selection

/-!
# Choosing a unit

A unit offers to run a job from the time it is free, and no earlier than asked. The greedy policies
take the offer that finishes first. Round robin takes the unit that is free first. Equally good
units go by number.
-/
namespace JobAllocation

/-- When a unit would run a job. -/
structure Offer (T : Type) where
  unit : ExecutionUnit T
  start : T
  finish : T

variable {T : Type} [Quantity T]

namespace Offer

/-- The offer of one unit. -/
def make (job : Job T) (notBefore : T) (unit : ExecutionUnit T) :
    Except (AllocationError T) (Offer T) := do
  let start := Quantity.larger unit.ready notBefore
  return { unit, start, finish := ← completionTime job unit start }

/-- Finishes earlier, or as early on a unit with a lower number. -/
def beats (a b : Offer T) : Bool :=
  a.finish < b.finish || (Quantity.Same a.finish b.finish && a.unit.id < b.unit.id)

/-- The job run as offered. -/
def completion (offer : Offer T) (job : Job T) : Completion T where
  job := job.id
  unit := offer.unit.id
  start := offer.start
  finish := offer.finish

end Offer

/-- The offer under which the job completes first. -/
def earliestOffer (job : Job T) (units : List (ExecutionUnit T)) (notBefore : T) :
    Except (AllocationError T) (Offer T) := do
  match Selection.best? Offer.beats (← units.mapM (Offer.make job notBefore)) with
  | some offer => return offer
  | none => throw .noUnits

/-- Free earlier, or as early with a lower number. -/
def ExecutionUnit.freeBefore (a b : ExecutionUnit T) : Bool :=
  a.ready < b.ready || (Quantity.Same a.ready b.ready && a.id < b.id)

/-- The unit that is free first. -/
def firstFree? (units : List (ExecutionUnit T)) : Option (ExecutionUnit T) :=
  Selection.best? ExecutionUnit.freeBefore units

end JobAllocation
