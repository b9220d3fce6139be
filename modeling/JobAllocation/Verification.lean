import JobAllocation.Estimate
import JobAllocation.Schedule

/-!
# Checking completions

Completions from outside are compared with the jobs, the units and the estimator. Nothing is
scheduled again: every completion is checked by itself, and each job is counted.
-/
namespace JobAllocation

/-- A way in which completions disagree with their input. -/
inductive Discrepancy (T : Type) where
  | missing (job : JobId)
  | duplicate (job : JobId)
  | unknownJob (job : JobId)
  | unknownUnit (job : JobId) (unit : UnitId)
  | negativeSpan (job : JobId) (start finish : T)
  | earlyStart (job : JobId) (start arrival : T)
  | durationMismatch (job : JobId) (expected actual : T)
  deriving DecidableEq

namespace Discrepancy

variable {T : Type}

def name : Discrepancy T → String
  | missing _ => "Missing"
  | duplicate _ => "Duplicate"
  | unknownJob _ => "UnknownJob"
  | unknownUnit _ _ => "UnknownUnit"
  | negativeSpan _ _ _ => "NegativeSpan"
  | earlyStart _ _ _ => "EarlyStart"
  | durationMismatch _ _ _ => "DurationMismatch"

def message [ToString T] : Discrepancy T → String
  | missing job => s!"job {job} has no result"
  | duplicate job => s!"job {job} appears more than once"
  | unknownJob job => s!"result for unknown job {job}"
  | unknownUnit job unit => s!"job {job} ran on unknown unit {unit}"
  | negativeSpan job start finish => s!"job {job} finishes at {finish} before it starts at {start}"
  | earlyStart job start arrival => s!"job {job} starts at {start} before arriving at {arrival}"
  | durationMismatch job expected actual => s!"job {job} ran for {actual}s, expected {expected}s"

end Discrepancy

namespace Verification

variable {T : Type} [Quantity T]

/-- Whether a completion took as long as its job takes on its unit. A unit on which nothing can run
is a fault of the input, not of the completion. -/
def checkDuration (tolerance : T) (c : Completion T) (job : Job T) (unit : ExecutionUnit T) :
    List (Discrepancy T) :=
  match executionTime job.length unit with
  | .error _ => []
  | .ok expected =>
    if tolerance < Quantity.magnitude (c.span - expected) then
      [.durationMismatch c.job expected c.span]
    else []

/-- What is wrong with a completion by itself. Of an unknown job or unit nothing further is
checked. -/
def checkCompletion (jobs : List (Job T)) (units : List (ExecutionUnit T)) (tolerance : T)
    (c : Completion T) : List (Discrepancy T) :=
  (if c.finish < c.start then [.negativeSpan c.job c.start c.finish] else []) ++
  match findJob? jobs c.job with
  | none => [.unknownJob c.job]
  | some job =>
    (if c.start < job.arrival then [.earlyStart c.job c.start job.arrival] else []) ++
    match findUnit? units c.unit with
    | none => [.unknownUnit c.job c.unit]
    | some unit => checkDuration tolerance c job unit

/-- What is wrong with completions that follow completions of the jobs `seen`. -/
def checkAll (jobs : List (Job T)) (units : List (ExecutionUnit T)) (tolerance : T)
    (seen : List JobId) : List (Completion T) → List (Discrepancy T)
  | [] => []
  | c :: rest =>
    (if c.job ∈ seen then [.duplicate c.job] else []) ++
      checkCompletion jobs units tolerance c ++
      checkAll jobs units tolerance (c.job :: seen) rest

/-- The jobs without a completion. -/
def missing (completions : List (Completion T)) (jobs : List (Job T)) : List (Discrepancy T) :=
  (jobs.filter fun job => !completions.any (·.job == job.id)).map fun job => .missing job.id

/-- Everything that is wrong with some completions. -/
def verify (completions : List (Completion T)) (jobs : List (Job T))
    (units : List (ExecutionUnit T)) (tolerance : T) : List (Discrepancy T) :=
  checkAll jobs units tolerance [] completions ++ missing completions jobs

end Verification
end JobAllocation
