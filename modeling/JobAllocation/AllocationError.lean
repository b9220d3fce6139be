import JobAllocation.ExecutionUnit
import JobAllocation.Job

/-!
# Why an allocation fails

Each cause is a constructor with the facts that its message states. `kind` groups the causes by what
is at fault, and `message` is the only place where they are worded.
-/
namespace JobAllocation

inductive AllocationError (T : Type) where
  | noUnits
  | duplicateUnit (unit : UnitId)
  | duplicateJob (job : JobId)
  | speedNotPositive (unit : UnitId) (speed : T)
  | readyNegative (unit : UnitId) (ready : T)
  | lengthNotPositive (job : JobId)
  | remainingExceedsLength (job : JobId) (remaining length : Nat)
  | arrivalNegative (job : JobId) (arrival : T)
  | deadlineNotPositive (job : JobId) (deadline : T)
  | quantumNotPositive
  | jobUnassigned (job : JobId)
  | jobRepeated (job : JobId)
  | jobUnknown (job : JobId)
  | unitUnknown (job : JobId) (unit : UnitId)
  | completionOfUnknownJob (job : JobId)
  | nothingCompleted
  deriving DecidableEq

namespace AllocationError

variable {T : Type}

/-- What is at fault. -/
inductive Kind where
  | configuration
  | job (id : JobId)
  | resource (id : UnitId)
  | emptyResults
  deriving DecidableEq

def kind : AllocationError T → Kind
  | speedNotPositive unit _ | readyNegative unit _ => .resource unit
  | lengthNotPositive job | remainingExceedsLength job _ _ | arrivalNegative job _
  | deadlineNotPositive job _ => .job job
  | nothingCompleted => .emptyResults
  | noUnits | duplicateUnit _ | duplicateJob _ | quantumNotPositive | jobUnassigned _
  | jobRepeated _ | jobUnknown _ | unitUnknown _ _ | completionOfUnknownJob _ => .configuration

/-- The cause in words. -/
def reason [ToString T] : AllocationError T → String
  | noUnits => "at least one execution unit is required"
  | duplicateUnit unit => s!"duplicate unit ID: {unit}"
  | duplicateJob job => s!"duplicate job ID: {job}"
  | speedNotPositive _ speed => s!"speed must be positive, got {speed}"
  | readyNegative _ ready => s!"ready time must be non-negative, got {ready}"
  | lengthNotPositive _ => "length must be positive"
  | remainingExceedsLength _ remaining length =>
    s!"remaining work {remaining} exceeds length {length}"
  | arrivalNegative _ arrival => s!"arrival time must be non-negative, got {arrival}"
  | deadlineNotPositive _ deadline => s!"deadline must be positive, got {deadline}"
  | quantumNotPositive => "round-robin quantum must be positive"
  | jobUnassigned job => s!"job {job} is not assigned"
  | jobRepeated job => s!"job {job} is assigned more than once"
  | jobUnknown job => s!"assignment references unknown job {job}"
  | unitUnknown job unit => s!"job {job} assigned to unknown unit {unit}"
  | completionOfUnknownJob job => s!"result for unknown job {job}"
  | nothingCompleted => "metrics requested on an empty result set"

/-- The cause in words, after what is at fault. -/
def message [ToString T] (error : AllocationError T) : String :=
  match error.kind with
  | .configuration => s!"invalid configuration: {error.reason}"
  | .job id => s!"invalid job {id}: {error.reason}"
  | .resource id => s!"invalid resource {id}: {error.reason}"
  | .emptyResults => error.reason

end AllocationError
end JobAllocation
