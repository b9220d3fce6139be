import JobAllocation.Proofs.RefusedCalls
import JobAllocation.Proofs.RetimedSearch

/-!
# Allocations under a change of times

A call on a changed pool allocates what it allocates of the pool itself, with all times moved along,
if it ranks the changed jobs as it ranks the jobs. What the metrics say of single jobs and of
deadlines is about differences between times, so it stays. The makespan alone is counted from zero,
and the shares of it for which the units were busy change with it.
-/
namespace JobAllocation

variable {T : Type}

/-- A schedule with the jobs that it completes and the units after it. -/
def Allocation.settled (schedule : Schedule T) (jobs : List (Job T))
    (units : List (ExecutionUnit T)) : Allocation T := ⟨schedule, schedule.settle jobs, units⟩

variable [Quantity T]

namespace Retiming

variable (φ : Retiming T)

def pool (pool : Pool T) : Pool T := ⟨pool.jobs.map φ.job, pool.units.map φ.unit⟩

def allocation (run : Allocation T) : Allocation T := ⟨φ.schedule run.schedule, φ.pool run.pool⟩

variable {φ}

theorem KeepsProgress.freshJobs_retime (hφ : φ.KeepsProgress) (pool : Pool T) :
    (φ.pool pool).freshJobs = pool.freshJobs.map φ.job := by
  rw [Pool.freshJobs, Retiming.pool, Pool.freshJobs, List.map_map, List.map_map]
  refine List.map_congr_left fun job _ => ?_
  have hlength : (φ.job job).reset = { φ.job job with remaining := job.length } :=
    congrArg (fun n => { φ.job job with remaining := n }) (φ.job_length job)
  exact hlength.trans (hφ job job.length).symm

theorem KeepsProgress.markCompleted_retime (hφ : φ.KeepsProgress) (jobs : List (Job T)) :
    (jobs.map φ.job).map Job.markCompleted = (jobs.map Job.markCompleted).map φ.job := by
  rw [List.map_map, List.map_map]
  exact List.map_congr_left fun job _ => (hφ job 0).symm

theorem KeepsProgress.settled_retime (hφ : φ.KeepsProgress) (schedule : Schedule T)
    (jobs : List (Job T)) (units : List (ExecutionUnit T)) :
    Allocation.settled (φ.schedule schedule) (jobs.map φ.job) (units.map φ.unit) =
      φ.allocation (.settled schedule jobs units) := by
  have hsettle : (φ.schedule schedule).settle (jobs.map φ.job) =
      (schedule.settle jobs).map φ.job := by
    rw [Schedule.settle, Schedule.settle, List.map_map, List.map_map]
    refine List.map_congr_left fun job _ => ?_
    have hany : (φ.schedule schedule).completions.any (·.job == (φ.job job).id) =
        schedule.completions.any (·.job == job.id) := by
      rw [Retiming.schedule, List.any_map, φ.job_id]
      rfl
    have hdone : φ.job job.markCompleted = (φ.job job).markCompleted := hφ job 0
    rw [Function.comp_apply, Function.comp_apply, hany, apply_ite φ.job, hdone]
  exact congrArg (fun jobs => (⟨_, jobs, _⟩ : Allocation T)) hsettle

/-- What is settled after a run with moved times is what is settled after the run, moved. -/
theorem KeepsProgress.map_settled_retime (hφ : φ.KeepsProgress) {E R : Type} {moved : R → R}
    (schedule : R → Schedule T) (hschedule : ∀ r, schedule (moved r) = φ.schedule (schedule r))
    {run again : Except E (R × List (ExecutionUnit T))}
    (h : again = run.map (Prod.map moved (List.map φ.unit))) (jobs : List (Job T)) :
    (again.map fun result => Allocation.settled (schedule result.1) (jobs.map φ.job) result.2) =
      (run.map fun result => Allocation.settled (schedule result.1) jobs result.2).map
        φ.allocation := by
  subst h
  cases run with
  | error e => rfl
  | ok result =>
    have hresult := hφ.settled_retime (schedule result.1) jobs result.2
    rw [← hschedule] at hresult
    exact congrArg Except.ok hresult

end Retiming

/-- All work of the jobs to do, at the same times. -/
def Retiming.fresh : Retiming T where
  job := Job.reset
  unit := id
  time := id
  job_id _ := rfl
  job_length _ := rfl
  job_arrival _ := rfl
  unit_id _ := rfl
  unit_speed _ := rfl
  unit_comm _ _ := rfl
  time_le _ _ := .rfl
  time_totalOrder _ _ := rfl
  time_add _ _ := rfl
  time_infinity := rfl

namespace HillClimbing

/-- The allocation of jobs with all of their work to do. -/
def allocateFresh (policy : HillClimbing) (jobs : List (Job T)) (units : List (ExecutionUnit T)) :
    Except (AllocationError T) (Allocation T) := do
  let initial ← policy.initial.build jobs units
  let climb ← LocalSearch.optimize policy.maxRounds initial jobs units
  let completions ← Execution.execute climb.assignment jobs units
  return ⟨.ofCompletions completions, jobs.map Job.markCompleted,
    completions.foldl (fun units c => advanceUnit units c.unit c.finish) units⟩

/-- The search and its execution do not ask what was left of a job. -/
theorem allocate_eq_fresh (policy : HillClimbing) {pool : Pool T} (h : pool.check = .ok ()) :
    policy.allocate pool = policy.allocateFresh pool.freshJobs pool.units := by
  have hunits : pool.units.map Retiming.fresh.unit = pool.units := List.map_id _
  have hjobs : pool.freshJobs = pool.jobs.map Retiming.fresh.job := rfl
  have hbuild := InitialAssignment.build_retime .fresh policy.initial pool.jobs pool.units
  have hclimb (initial : Assignment) :=
    LocalSearch.optimize_retime .fresh policy.maxRounds initial pool.jobs pool.units
  have hplan (a : Assignment) : Execution.execute a pool.freshJobs pool.units =
      Execution.execute a pool.jobs pool.units := by
    have hmoved := Execution.execute_retime .fresh a pool.jobs pool.units
    have hstill : List.map Retiming.fresh.completion = (id : List (Completion T) → _) :=
      List.map_id_fun
    rwa [hunits, hstill, Except.map_id] at hmoved
  have hdone : pool.freshJobs.map Job.markCompleted = pool.jobs.map Job.markCompleted := by
    rw [Pool.freshJobs, List.map_map]
    rfl
  rw [hunits, ← hjobs] at hbuild hclimb
  simp only [allocate, search, h, allocateFresh, hbuild, hclimb, hplan, hdone, bind_assoc]
  rfl

theorem unitsAfter_retime (φ : Retiming T) (completions : List (Completion T))
    (units : List (ExecutionUnit T)) :
    (completions.map φ.completion).foldl (fun units c => advanceUnit units c.unit c.finish)
        (units.map φ.unit) =
      (completions.foldl (fun units c => advanceUnit units c.unit c.finish) units).map φ.unit := by
  induction completions generalizing units with
  | nil => rfl
  | cons c rest ih =>
    rw [List.map_cons, List.foldl_cons, List.foldl_cons, ← ih]
    exact congrArg (List.foldl _ · _) (φ.advanceUnit_retime units c.unit c.finish)

theorem allocateFresh_retime {φ : Retiming T} (hφ : φ.KeepsProgress) (policy : HillClimbing)
    (jobs : List (Job T)) (units : List (ExecutionUnit T)) :
    policy.allocateFresh (jobs.map φ.job) (units.map φ.unit) =
      (policy.allocateFresh jobs units).map φ.allocation := by
  unfold allocateFresh
  simp only [InitialAssignment.build_retime, LocalSearch.optimize_retime]
  refine bind_comm (congrFun Except.map_id _).symm fun initial => ?_
  refine bind_comm (congrFun Except.map_id _).symm fun climb => ?_
  refine bind_comm (Execution.execute_retime φ climb.assignment jobs units) fun cs => ?_
  rw [hφ.markCompleted_retime, unitsAfter_retime]
  rfl

end HillClimbing

namespace Call

/-- The allocation of jobs with all of their work to do. -/
def allocateFresh (call : Call T) (jobs : List (Job T)) (units : List (ExecutionUnit T)) :
    Except (AllocationError T) (Allocation T) :=
  match call with
  | list engine =>
    (ListScheduling.run engine (ListScheduling.firstReady units) jobs units).map fun result =>
      .settled (.ofCompletions result.1) jobs result.2
  | batch heuristic =>
    (heuristic.run (jobs.mergeSort (·.id ≤ ·.id)) units).map fun result =>
      .settled (.ofCompletions result.1) jobs result.2
  | roundRobin quantum =>
    if hq : 0 < quantum then
      (RoundRobin.run quantum hq jobs units .empty).map fun result =>
        .settled result.1 jobs result.2
    else .error .quantumNotPositive
  | hillClimbing policy => policy.allocateFresh jobs units

theorem allocate_eq_fresh (call : Call T) {pool : Pool T} (h : pool.check = .ok ()) :
    call.allocate pool = call.allocateFresh pool.freshJobs pool.units := by
  cases call with
  | list engine =>
    simp only [allocate, ListScheduling.allocateBy, h, allocateFresh]
    cases ListScheduling.run engine (ListScheduling.firstReady pool.units) pool.freshJobs
      pool.units <;> rfl
  | batch heuristic =>
    simp only [allocate, BatchHeuristic.allocate, h, allocateFresh]
    cases heuristic.run (pool.freshJobs.mergeSort (·.id ≤ ·.id)) pool.units <;> rfl
  | roundRobin quantum =>
    simp only [allocate, RoundRobin.allocate, h, allocateFresh]
    split
    · next hq => cases RoundRobin.run quantum hq pool.freshJobs pool.units .empty <;> rfl
    · rfl
  | hillClimbing policy => exact policy.allocate_eq_fresh h

/-- The call ranks changed jobs as it ranks the jobs. -/
def KeepsOrder (φ : Retiming T) : Call T → Prop
  | list engine => ListScheduling.KeepsOrder φ engine
  | batch heuristic => heuristic = .deadlineMinMin → ∀ job, (φ.job job).due = φ.time job.due
  | roundRobin _ | hillClimbing _ => True

variable {φ : Retiming T} {call : Call T}

theorem allocateFresh_retime (hφ : φ.KeepsProgress) (hcall : call.KeepsOrder φ)
    (jobs : List (Job T)) (units : List (ExecutionUnit T)) :
    call.allocateFresh (jobs.map φ.job) (units.map φ.unit) =
      (call.allocateFresh jobs units).map φ.allocation := by
  cases call with
  | list engine =>
    have hrun := ListScheduling.run_retime hcall (ListScheduling.firstReady units) jobs units
    rw [← ListScheduling.firstReady_retime] at hrun
    exact hφ.map_settled_retime .ofCompletions (fun _ => rfl) hrun jobs
  | batch heuristic =>
    have hrun := BatchHeuristic.run_retime hcall (jobs.mergeSort (·.id ≤ ·.id)) units
    rw [← mergeSort_map_comm Job.id φ.job_id] at hrun
    exact hφ.map_settled_retime .ofCompletions (fun _ => rfl) hrun jobs
  | roundRobin quantum =>
    rw [allocateFresh, allocateFresh]
    split
    · next hq =>
      exact hφ.map_settled_retime id (fun _ => rfl)
        (RoundRobin.run_retime hφ hq jobs units .empty) jobs
    · rfl
  | hillClimbing policy => exact policy.allocateFresh_retime hφ jobs units

/-- What a call allocates of a changed pool is what it allocates of the pool, changed. -/
theorem allocate_retime (hφ : φ.KeepsProgress) (hcall : call.KeepsOrder φ) {pool : Pool T}
    (h : pool.check = .ok ()) (hmoved : (φ.pool pool).check = .ok ()) :
    call.allocate (φ.pool pool) = (call.allocate pool).map φ.allocation := by
  rw [call.allocate_eq_fresh hmoved, call.allocate_eq_fresh h, hφ.freshJobs_retime,
    ← allocateFresh_retime hφ hcall]
  rfl

end Call

/-- The usual rules rank by arrivals, by lengths and by due dates. -/
theorem RuleChain.keepsOrder_engine {φ : Retiming T} {rules : RuleChain}
    (hdue : .edd ∈ rules → ∀ job, (φ.job job).due = φ.time job.due) :
    ListScheduling.KeepsOrder φ rules.engine := by
  intro score hscore now a b
  obtain ⟨rule, hrule, rfl⟩ := List.mem_map.mp hscore
  cases rule with
  | fifo => simp only [Rule.score, φ.job_arrival, φ.time_totalOrder]
  | spt => simp only [Rule.score, φ.job_length]
  | edd => simp only [Rule.score, hdue hrule, φ.time_totalOrder]

namespace Allocator

/-- The allocator ranks jobs by their deadlines. -/
def RanksByDeadline : Allocator → Prop
  | list policy => .edd ∈ policy.rules
  | batch heuristic => heuristic = .deadlineMinMin
  | roundRobin _ | hillClimbing _ => False

variable {φ : Retiming T} {allocator : Allocator}

theorem keepsOrder_call
    (hdue : allocator.RanksByDeadline → ∀ job, (φ.job job).due = φ.time job.due) :
    allocator.call.KeepsOrder φ := by
  cases allocator with
  | list policy => exact RuleChain.keepsOrder_engine hdue
  | batch heuristic => exact hdue
  | roundRobin quantum => trivial
  | hillClimbing policy => trivial

theorem allocate_retime (hφ : φ.KeepsProgress)
    (hdue : allocator.RanksByDeadline → ∀ job, (φ.job job).due = φ.time job.due) {pool : Pool T}
    (h : pool.check = .ok ()) (hmoved : (φ.pool pool).check = .ok ()) :
    allocator.allocate (φ.pool pool) = (allocator.allocate pool).map φ.allocation := by
  rw [← allocate_call, ← allocate_call, Call.allocate_retime hφ (keepsOrder_call hdue) h hmoved]

end Allocator

namespace Retiming

variable (φ : Retiming T)

/-- The change keeps the differences between times. -/
def KeepsSpans : Prop := ∀ x y, φ.time x - φ.time y = x - y

/-- Deadlines move like all other times. -/
def MovesDeadlines : Prop := ∀ job, (φ.job job).deadline = job.deadline.map φ.time

variable {φ}

theorem MovesDeadlines.due_eq (hφ : φ.MovesDeadlines) (job : Job T) :
    (φ.job job).due = φ.time job.due := by
  rw [Job.due, Job.due, hφ]
  cases job.deadline with
  | none => exact φ.time_infinity.symm
  | some deadline => rfl

theorem MovesDeadlines.isLate_eq (hφ : φ.MovesDeadlines) (job : Job T) (finish : T) :
    (φ.job job).isLate (φ.time finish) = job.isLate finish := by
  rw [Job.isLate, Job.isLate, hφ]
  cases job.deadline with
  | none => rfl
  | some deadline => simp only [Option.map_some, φ.time_lt]

theorem MovesDeadlines.tardiness_eq (hφ : φ.MovesDeadlines) (hspans : φ.KeepsSpans) (job : Job T)
    (finish : T) : (φ.job job).tardiness (φ.time finish) = job.tardiness finish := by
  rw [Job.tardiness, Job.tardiness, hφ]
  cases job.deadline with
  | none => rfl
  | some deadline => simp only [Option.map_some, φ.time_lt, hspans finish deadline]

theorem KeepsSpans.executionTime?_eq (hspans : φ.KeepsSpans) (schedule : Schedule T)
    (job : JobId) : (φ.schedule schedule).executionTime? job = schedule.executionTime? job := by
  have hslices : (φ.schedule schedule).slicesOf job = (schedule.slicesOf job).map φ.slice :=
    List.filter_map
  have hcompletion : (φ.schedule schedule).completionOf? job =
      (schedule.completionOf? job).map φ.completion := List.find?_map
  have hempty : (φ.schedule schedule).isPreemptive = schedule.isPreemptive := by
    rw [Schedule.isPreemptive, Retiming.schedule, List.isEmpty_map, Schedule.isPreemptive]
  have hspan (c : Completion T) : (φ.completion c).span = c.span := hspans c.finish c.start
  have hduration (slice : Slice T) : (φ.slice slice).duration = slice.duration :=
    hspans slice.finish slice.start
  rw [Schedule.executionTime?, Schedule.executionTime?, hempty, hslices, hcompletion]
  split
  · cases schedule.slicesOf job with
    | nil => rfl
    | cons first rest => simp only [List.map_cons, List.map_map, Function.comp_def, hduration]
  · simp only [Option.map_map, Function.comp_def, hspan]

end Retiming

namespace Metrics

/-- The metrics with what hangs on the makespan told of another schedule. -/
def rescaled (metrics : Metrics T) (schedule : Schedule T) : Metrics T :=
  { metrics with
    makespan := schedule.makespan
    utilizationByUnit := schedule.utilizations
    avgUtilization := mean (schedule.utilizations.map (·.2)) }

variable {φ : Retiming T}

theorem identify_retime (φ : Retiming T) (jobs : List (Job T)) (completions : List (Completion T)) :
    (completions.map φ.completion).mapM (identify (jobs.map φ.job)) =
      (completions.mapM (identify jobs)).map (List.map (Prod.map φ.completion φ.job)) := by
  refine mapM_map_comm (fun c => ?_) completions
  have hfind : findJob? (jobs.map φ.job) (φ.completion c).job =
      (findJob? jobs c.job).map φ.job := findJob?_retime φ jobs c.job
  rw [identify, identify, hfind]
  cases findJob? jobs c.job <;> rfl

theorem ofCompletion_retime (hspans : φ.KeepsSpans) (hdeadlines : φ.MovesDeadlines)
    (schedule : Schedule T) (c : Completion T) (job : Job T) :
    ofCompletion (φ.schedule schedule) (φ.completion c) (φ.job job) =
      ofCompletion schedule c job := by
  have hspan : (φ.completion c).span = c.span := hspans c.finish c.start
  simp only [ofCompletion, hspans.executionTime?_eq, hspan, φ.completion_job, φ.completion_unit,
    φ.completion_start, φ.completion_finish, φ.job_arrival, hspans c.start, hspans c.finish,
    hdeadlines.isLate_eq]

theorem summarize_retime (hspans : φ.KeepsSpans) (hdeadlines : φ.MovesDeadlines)
    (schedule : Schedule T) (runs : List (Completion T × Job T)) :
    summarize (φ.schedule schedule) (runs.map (Prod.map φ.completion φ.job)) =
      (summarize schedule runs).rescaled (φ.schedule schedule) := by
  simp only [summarize, rescaled, List.map_map, List.filter_map, List.length_map, List.countP_map,
    List.isEmpty_map, Function.comp_def, Prod.map, ofCompletion_retime hspans hdeadlines,
    φ.completion_finish, hdeadlines.isLate_eq, hdeadlines.tardiness_eq hspans, hdeadlines _,
    Option.isSome_map]

end Metrics

/-- The report with all its times moved. -/
def Retiming.report (φ : Retiming T) (report : Report T) : Report T :=
  { report with
    schedule := φ.schedule report.schedule
    metrics := report.metrics.map (·.rescaled (φ.schedule report.schedule))
    units := report.units.map φ.unit }

namespace Report

/-- The report of a run. -/
def ofRun (policy : Policy) (run : Allocation T) : Except (AllocationError T) (Report T) := do
  let metrics ←
    if run.schedule.completions.isEmpty then pure none
    else some <$> Metrics.ofSchedule run.schedule run.pool.jobs
  return { policy, schedule := run.schedule, metrics, units := run.pool.units }

theorem ofRun_eq (policy : Policy) (run : Allocation T) :
    ofRun policy run =
      if run.schedule.completions.isEmpty then .ok ⟨policy, run.schedule, none, run.pool.units⟩
      else (run.schedule.completions.mapM (Metrics.identify run.pool.jobs)).map fun runs =>
        ⟨policy, run.schedule, some (.summarize run.schedule runs), run.pool.units⟩ := by
  unfold ofRun Metrics.ofSchedule
  split
  · rfl
  · cases run.schedule.completions.mapM (Metrics.identify run.pool.jobs) <;> rfl

theorem ofRun_retime {φ : Retiming T} (hspans : φ.KeepsSpans) (hdeadlines : φ.MovesDeadlines)
    (policy : Policy) (run : Allocation T) :
    ofRun policy (φ.allocation run) = (ofRun policy run).map φ.report := by
  have hempty : (φ.allocation run).schedule.completions.isEmpty =
      run.schedule.completions.isEmpty := List.isEmpty_map
  have hidentify : (φ.allocation run).schedule.completions.mapM
        (Metrics.identify (φ.allocation run).pool.jobs) =
      (run.schedule.completions.mapM (Metrics.identify run.pool.jobs)).map
        (List.map (Prod.map φ.completion φ.job)) := Metrics.identify_retime φ _ _
  rw [ofRun_eq, ofRun_eq, hempty, hidentify]
  split
  · rfl
  · cases run.schedule.completions.mapM (Metrics.identify run.pool.jobs) with
    | error e => rfl
    | ok runs =>
      have hsummary := Metrics.summarize_retime hspans hdeadlines run.schedule runs
      exact congrArg (fun metrics => Except.ok (⟨policy, _, some metrics, _⟩ : Report T)) hsummary

theorem ofPolicy_retime {φ : Retiming T} (hφ : φ.KeepsProgress) (hspans : φ.KeepsSpans)
    (hdeadlines : φ.MovesDeadlines) (policy : Policy) {pool : Pool T} (h : pool.check = .ok ())
    (hmoved : (φ.pool pool).check = .ok ()) :
    ofPolicy policy (φ.pool pool) = (ofPolicy policy pool).map φ.report :=
  bind_comm (policy.allocator.allocate_retime hφ (fun _ => hdeadlines.due_eq) h hmoved)
    (ofRun_retime hspans hdeadlines policy)

end Report
end JobAllocation
