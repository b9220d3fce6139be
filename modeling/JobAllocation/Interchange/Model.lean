import JobAllocation.Interchange.Codec
import JobAllocation.Schedule

/-!
# Jobs, units, assignments and schedules as JSON
-/
namespace JobAllocation

open Interchange

namespace Job

def toJson (job : Job Binary64) : Json :=
  .object [("id", .natural job.id), ("name", .string job.name), ("length", .natural job.length),
    ("arrival_time", ofQuantity job.arrival), ("deadline", .ofOption ofQuantity job.deadline),
    ("remaining", .natural job.remaining)]

def ofJson? (j : Json) : Option (Job Binary64) := do
  let [id, name, length, arrival, deadline, remaining] ←
      fields? ["id", "name", "length", "arrival_time", "deadline", "remaining"] j
    | none
  return {
    id := ← required nat? id
    name := ← required string? name
    length := ← required nat? length
    arrival := ← required quantity? arrival
    deadline := ← optional quantity? deadline
    remaining := ← required nat? remaining }

end Job

namespace ExecutionUnit

def toJson (unit : ExecutionUnit Binary64) : Json :=
  .object [("id", .natural unit.id), ("name", .string unit.name),
    ("speed_mips", ofQuantity unit.speed), ("ready_time", ofQuantity unit.ready)]

def ofJson? (j : Json) : Option (ExecutionUnit Binary64) := do
  let [id, name, speed, ready] ← fields? ["id", "name", "speed_mips", "ready_time"] j | none
  return {
    id := ← required nat? id
    name := ← required string? name
    speed := ← required quantity? speed
    ready := ← required quantity? ready }

end ExecutionUnit

namespace Assignment

def toJson (a : Assignment) : Json := .object [("entries", .ofList ofPair a.entries)]

def ofJson? (j : Json) : Option Assignment := do
  let [entries] ← fields? ["entries"] j | none
  return ⟨← required (list? pair?) entries⟩

end Assignment

namespace Completion

def toJson (c : Completion Binary64) : Json :=
  .object [("job_id", .natural c.job), ("unit_id", .natural c.unit),
    ("start_time", ofQuantity c.start), ("finish_time", ofQuantity c.finish)]

def ofJson? (j : Json) : Option (Completion Binary64) := do
  let [job, unit, start, finish] ← fields? ["job_id", "unit_id", "start_time", "finish_time"] j
    | none
  return {
    job := ← required nat? job
    unit := ← required nat? unit
    start := ← required quantity? start
    finish := ← required quantity? finish }

end Completion

namespace SliceOutcome

def name : SliceOutcome → String
  | preempted => "Preempted"
  | completed => "Completed"

def ofName? : String → Option SliceOutcome
  | "Preempted" => some preempted
  | "Completed" => some completed
  | _ => none

def ofJson? (j : Json) : Option SliceOutcome := plainChoice? j >>= ofName?

end SliceOutcome

namespace Slice

def toJson (s : Slice Binary64) : Json :=
  .object [("step", .natural s.step), ("job_id", .natural s.job), ("unit_id", .natural s.unit),
    ("start_time", ofQuantity s.start), ("end_time", ofQuantity s.finish),
    ("work_done", .natural s.work), ("remaining_after", .natural s.remaining),
    ("outcome", .string s.outcome.name)]

def ofJson? (j : Json) : Option (Slice Binary64) := do
  let [step, job, unit, start, finish, work, remaining, outcome] ←
      fields? ["step", "job_id", "unit_id", "start_time", "end_time", "work_done",
        "remaining_after", "outcome"] j
    | none
  return {
    step := ← required nat? step
    job := ← required nat? job
    unit := ← required nat? unit
    start := ← required quantity? start
    finish := ← required quantity? finish
    work := ← required nat? work
    remaining := ← required nat? remaining
    outcome := ← required SliceOutcome.ofJson? outcome }

end Slice

namespace Schedule

def toJson (s : Schedule Binary64) : Json :=
  .object [("results", .ofList Completion.toJson s.completions),
    ("records", .ofList Slice.toJson s.slices), ("context_switches", .natural s.contextSwitches)]

def ofJson? (j : Json) : Option (Schedule Binary64) := do
  let [completions, slices, switches] ← fields? ["results", "records", "context_switches"] j | none
  return {
    completions := ← required (list? Completion.ofJson?) completions
    slices := ← required (list? Slice.ofJson?) slices
    contextSwitches := ← required nat? switches }

end Schedule
end JobAllocation
