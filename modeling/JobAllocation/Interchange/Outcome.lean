import JobAllocation.Interchange.Policy
import JobAllocation.QuantumSweep
import JobAllocation.Report
import JobAllocation.Verification

/-!
# Metrics, searches, discrepancies and reports as JSON
-/
namespace JobAllocation

open Interchange

namespace JobMetrics

def toJson (m : JobMetrics Binary64) : Json :=
  .object [("job_id", .natural m.job), ("unit_id", .natural m.unit),
    ("waiting", ofQuantity m.waiting), ("turnaround", ofQuantity m.turnaround),
    ("execution", ofQuantity m.execution), ("late", .bool m.late)]

def ofJson? (j : Json) : Option (JobMetrics Binary64) := do
  let [job, unit, waiting, turnaround, execution, late] ←
      fields? ["job_id", "unit_id", "waiting", "turnaround", "execution", "late"] j
    | none
  return {
    job := ← required nat? job
    unit := ← required nat? unit
    waiting := ← required quantity? waiting
    turnaround := ← required quantity? turnaround
    execution := ← required quantity? execution
    late := ← required bool? late }

end JobMetrics

namespace Metrics

/-- An object with a member per unit. -/
def ofUtilization (shares : List (UnitId × Binary64)) : Json :=
  .object (shares.map fun (unit, share) => (toString unit, ofQuantity share))

def utilization? : Json → Option (List (UnitId × Binary64))
  | .object members => do
    let shares ← members.mapM fun (name, share) => do return (← natKey? name, ← quantity? share)
    return shares.mergeSort (·.1 ≤ ·.1)
  | _ => none

def toJson (m : Metrics Binary64) : Json :=
  .object [("completed", .natural m.completed), ("avg_waiting", ofQuantity m.avgWaiting),
    ("avg_turnaround", ofQuantity m.avgTurnaround), ("avg_execution", ofQuantity m.avgExecution),
    ("total_execution", ofQuantity m.totalExecution), ("makespan", ofQuantity m.makespan),
    ("missed_deadlines", .ofOption .natural m.missedDeadlines),
    ("deadline_miss_rate", .ofOption ofQuantity m.deadlineMissRate),
    ("total_tardiness", ofQuantity m.totalTardiness),
    ("utilization_by_unit", ofUtilization m.utilizationByUnit),
    ("avg_utilization", ofQuantity m.avgUtilization), ("jobs", .ofList JobMetrics.toJson m.jobs)]

def ofJson? (j : Json) : Option (Metrics Binary64) := do
  let [completed, avgWaiting, avgTurnaround, avgExecution, totalExecution, makespan, missed, rate,
        tardiness, shares, avgUtilization, jobs] ←
      fields? ["completed", "avg_waiting", "avg_turnaround", "avg_execution", "total_execution",
        "makespan", "missed_deadlines", "deadline_miss_rate", "total_tardiness",
        "utilization_by_unit", "avg_utilization", "jobs"] j
    | none
  return {
    completed := ← required nat? completed
    avgWaiting := ← required quantity? avgWaiting
    avgTurnaround := ← required quantity? avgTurnaround
    avgExecution := ← required quantity? avgExecution
    totalExecution := ← required quantity? totalExecution
    makespan := ← required quantity? makespan
    missedDeadlines := ← optional nat? missed
    deadlineMissRate := ← optional quantity? rate
    totalTardiness := ← required quantity? tardiness
    utilizationByUnit := ← required utilization? shares
    avgUtilization := ← required quantity? avgUtilization
    jobs := ← required (list? JobMetrics.ofJson?) jobs }

end Metrics

namespace LocalSearch.Move

def toJson (m : Move Binary64) : Json :=
  .object [("job_id", .natural m.job), ("from", .natural m.source), ("to", .natural m.target),
    ("makespan", ofQuantity m.makespan)]

def ofJson? (j : Json) : Option (Move Binary64) := do
  let [job, source, target, makespan] ← fields? ["job_id", "from", "to", "makespan"] j | none
  return {
    job := ← required nat? job
    source := ← required nat? source
    target := ← required nat? target
    makespan := ← required quantity? makespan }

end LocalSearch.Move

namespace LocalSearch.Climb

def toJson (c : Climb Binary64) : Json :=
  .object [("assignment", c.assignment.toJson), ("initial_makespan", ofQuantity c.initialMakespan),
    ("makespan", ofQuantity c.makespan), ("moves", .ofList Move.toJson c.moves),
    ("converged", .bool c.converged)]

def ofJson? (j : Json) : Option (Climb Binary64) := do
  let [assignment, initialMakespan, makespan, moves, converged] ←
      fields? ["assignment", "initial_makespan", "makespan", "moves", "converged"] j
    | none
  return {
    assignment := ← required Assignment.ofJson? assignment
    initialMakespan := ← required quantity? initialMakespan
    makespan := ← required quantity? makespan
    moves := ← required (list? Move.ofJson?) moves
    converged := ← required bool? converged }

end LocalSearch.Climb

namespace Discrepancy

/-- The facts of a discrepancy. -/
def dataJson : Discrepancy Binary64 → Json
  | missing job | duplicate job | unknownJob job => .object [("job_id", .natural job)]
  | unknownUnit job unit => .object [("job_id", .natural job), ("unit_id", .natural unit)]
  | negativeSpan job start finish =>
    .object [("job_id", .natural job), ("start", ofQuantity start), ("finish", ofQuantity finish)]
  | earlyStart job start arrival =>
    .object [("job_id", .natural job), ("start", ofQuantity start), ("arrival", ofQuantity arrival)]
  | durationMismatch job expected actual =>
    .object [("job_id", .natural job), ("expected", ofQuantity expected),
      ("actual", ofQuantity actual)]

def toJson (d : Discrepancy Binary64) : Json := .object [(d.name, d.dataJson)]

/-- A discrepancy that states a job alone. -/
def ofJob? (make : JobId → Discrepancy Binary64) (data : Json) : Option (Discrepancy Binary64) := do
  let [job] ← members? ["job_id"] data | none
  return make (← required nat? job)

/-- A discrepancy that states a job and two times. -/
def ofTimes? (make : JobId → Binary64 → Binary64 → Discrepancy Binary64) (first second : String)
    (data : Json) : Option (Discrepancy Binary64) := do
  let [job, a, b] ← members? ["job_id", first, second] data | none
  return make (← required nat? job) (← required quantity? a) (← required quantity? b)

def ofJson? (j : Json) : Option (Discrepancy Binary64) :=
  match choice? j with
  | some ("Missing", some data) => ofJob? missing data
  | some ("Duplicate", some data) => ofJob? duplicate data
  | some ("UnknownJob", some data) => ofJob? unknownJob data
  | some ("UnknownUnit", some data) => do
    let [job, unit] ← members? ["job_id", "unit_id"] data | none
    return unknownUnit (← required nat? job) (← required nat? unit)
  | some ("NegativeSpan", some data) => ofTimes? negativeSpan "start" "finish" data
  | some ("EarlyStart", some data) => ofTimes? earlyStart "start" "arrival" data
  | some ("DurationMismatch", some data) => ofTimes? durationMismatch "expected" "actual" data
  | _ => none

end Discrepancy

namespace QuantumOutcome

def toJson (o : QuantumOutcome Binary64) : Json :=
  .object [("quantum", .natural o.quantum), ("context_switches", .natural o.contextSwitches),
    ("makespan", ofQuantity o.makespan), ("avg_waiting", ofQuantity o.avgWaiting),
    ("avg_turnaround", ofQuantity o.avgTurnaround)]

def ofJson? (j : Json) : Option (QuantumOutcome Binary64) := do
  let [quantum, switches, makespan, avgWaiting, avgTurnaround] ←
      fields? ["quantum", "context_switches", "makespan", "avg_waiting", "avg_turnaround"] j
    | none
  return {
    quantum := ← required nat? quantum
    contextSwitches := ← required nat? switches
    makespan := ← required quantity? makespan
    avgWaiting := ← required quantity? avgWaiting
    avgTurnaround := ← required quantity? avgTurnaround }

end QuantumOutcome

namespace Report

def toJson (r : Report Binary64) : Json :=
  .object [("policy", r.policy.toJson), ("schedule", r.schedule.toJson),
    ("metrics", .ofOption Metrics.toJson r.metrics),
    ("units", .ofList ExecutionUnit.toJson r.units)]

def ofJson? (j : Json) : Option (Report Binary64) := do
  let [policy, schedule, metrics, units] ← fields? ["policy", "schedule", "metrics", "units"] j
    | none
  return {
    policy := ← required Policy.ofJson? policy
    schedule := ← required Schedule.ofJson? schedule
    metrics := ← optional Metrics.ofJson? metrics
    units := ← required (list? ExecutionUnit.ofJson?) units }

end Report
end JobAllocation
