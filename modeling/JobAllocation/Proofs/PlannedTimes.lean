import JobAllocation.Proofs.BatchRun
import JobAllocation.Proofs.Binary64Times
import JobAllocation.Proofs.ListRun
import JobAllocation.Proofs.RoundRobinRun

/-!
# Planned times are the times of the execution

List scheduling under every rule engine, the batch heuristics, and round robin with a quantum that
no job exceeds plan what the execution of their assignment does.
-/
namespace JobAllocation

namespace RoundRobin

variable {T : Type} [Quantity T]

namespace Turn

variable {quantum : Nat} {job : Job T} {units : List (ExecutionUnit T)} {schedule : Schedule T}
  {unit : ExecutionUnit T} {slice : Slice T}

theorem finish_of_le (h : Turn quantum job units schedule unit slice)
    (hle : job.remaining ≤ quantum) :
    slice.finish = Quantity.larger unit.ready job.arrival +
      Quantity.ofNat job.remaining / unit.speed := by
  rw [h.slice_eq, sliceOn, Nat.min_eq_right hle]

theorem requeue_of_le (h : Turn quantum job units schedule unit slice)
    (hle : job.remaining ≤ quantum) (rest : List (Job T)) :
    requeue job slice.remaining rest = rest := by
  have hnone : slice.remaining = 0 := by
    rw [h.slice_remaining, Portion.next, Nat.min_eq_right hle, Nat.sub_self]
  rw [requeue, if_neg (by omega)]

/-- The turn of a job that one quantum covers is its first and last. -/
theorem record_of_le (h : Turn quantum job units schedule unit slice)
    (hle : job.remaining ≤ quantum) (hfirst : schedule.firstStart? job.id = none) :
    record schedule slice =
      (schedule.addSlice slice).addCompletion
        ⟨job.id, unit.id, Quantity.larger unit.ready job.arrival, slice.finish⟩ := by
  have hdone : slice.outcome = .completed := by
    rw [h.slice_eq, sliceOn, Nat.min_eq_right hle, Nat.sub_self]
    rfl
  rw [record_of_completed hdone, h.slice_job, hfirst, h.slice_eq]
  rfl

end Turn

variable [LawfulQuantity T]

theorem exists_prompt_run {quantum : Nat} (hq : 0 < quantum) {jobs queue : List (Job T)}
    {units : List (ExecutionUnit T)} {schedule : Schedule T} (hw : Working units)
    (hn : (queue.map (·.id)).Nodup) (hj : ∀ job ∈ queue, ∃ source ∈ jobs, source.reset = job)
    (hshort : ∀ job ∈ jobs, job.length ≤ quantum)
    (hfirst : ∀ job ∈ queue, schedule.firstStart? job.id = none) :
    ∃ plan last later, run quantum hq queue units schedule = .ok (last, later) ∧
      last.completions = schedule.completions ++ plan ∧ Prompt jobs units plan ∧
      plan.map (·.job) = queue.map (·.id) := by
  induction queue generalizing units schedule with
  | nil => exact ⟨[], schedule, units, run_nil hq units schedule, by simp, .nil, rfl⟩
  | cons job rest ih =>
    obtain ⟨source, hsource, rfl⟩ := hj job List.mem_cons_self
    obtain ⟨unit, slice, hturn, hrun⟩ := exists_turn hq hw source.reset rest schedule
    rw [List.map_cons, List.nodup_cons] at hn
    have hcovered : source.reset.remaining ≤ quantum := hshort source hsource
    have hrecord := hturn.record_of_le hcovered (hfirst _ List.mem_cons_self)
    -- A job further back in the queue has another number, so it has not started yet.
    have hlater : ∀ job ∈ rest, (record schedule slice).firstStart? job.id = none := by
      intro job hm
      have hne : slice.job ≠ job.id := by
        rw [hturn.slice_job]
        exact fun heq => hn.1 (List.mem_map.mpr ⟨job, hm, heq.symm⟩)
      rw [firstStart?_record, hfirst job (List.mem_cons_of_mem _ hm), if_neg hne, Option.or_none]
    obtain ⟨plan, last, later, hrest, hcompletions, hprompt, hids⟩ :=
      ih (hw.advance unit.id slice.finish) hn.2
        (fun job hm => hj job (List.mem_cons_of_mem _ hm)) hlater
    have hstart : 0 ≤ Quantity.larger unit.ready source.arrival :=
      Quantity.nonneg_larger (hw.ready_nonneg unit hturn.unit_mem) _
    refine ⟨⟨source.id, unit.id, Quantity.larger unit.ready source.arrival, slice.finish⟩ :: plan,
      last, later, ?_, ?_, .cons hsource hturn.unit_mem rfl rfl (Quantity.Same.refl hstart)
        (hturn.finish_of_le hcovered) hprompt, congrArg _ hids⟩
    · rw [hrun, hturn.requeue_of_le hcovered, hrest]
    · rw [hcompletions, hrecord]
      simp [Schedule.addCompletion, Schedule.addSlice, Job.reset]

/-- Within one quantum the jobs are planned promptly and in the order in which they are listed. -/
theorem exists_prompt_allocate {quantum : Nat} (hq : 0 < quantum) {pool : Pool T}
    (h : pool.check = .ok ()) (hshort : ∀ job ∈ pool.jobs, job.length ≤ quantum) :
    ∃ run, allocate quantum pool = .ok run ∧
      Prompt pool.jobs pool.units run.schedule.completions ∧
      run.schedule.completions.map (·.job) = pool.jobs.map (·.id) := by
  have hv := Pool.valid_of_check h
  have hids := pool.map_id_freshJobs
  have hunstarted : ∀ job ∈ pool.freshJobs,
      (Schedule.empty : Schedule T).firstStart? job.id = none := fun _ _ => rfl
  obtain ⟨plan, last, later, hrun, hcompletions, hprompt, hplan⟩ :=
    exists_prompt_run hq hv.working (hids ▸ hv.jobs_distinct)
      (fun _ hj => Pool.exists_of_mem_freshJobs hj) hshort hunstarted
  refine ⟨⟨last, last.settle pool.freshJobs, later⟩, ?_, ?_, ?_⟩
  · exact allocate_of_run hq h hrun
  · rw [hcompletions]
    exact hprompt
  · rw [hcompletions]
    exact hplan.trans hids

theorem plansPromptly_allocate {quantum : Nat} (hq : 0 < quantum) {pool : Pool T}
    (h : pool.check = .ok ()) (hshort : ∀ job ∈ pool.jobs, job.length ≤ quantum) :
    PlansPromptly pool (allocate quantum pool) := by
  obtain ⟨run, hok, hprompt, hids⟩ := exists_prompt_allocate hq h hshort
  exact ⟨run, hok, hprompt, .of_eq hids⟩

end RoundRobin

/-- The planned and the realized times agree in binary64, in which sums of times are rounded. -/
theorem planned_times_realized (pool : Pool Binary64) (valid : pool.check = .ok ()) :
    (∀ engine, Realized pool (ListScheduling.allocateBy engine pool)) ∧
      (∀ heuristic : BatchHeuristic, Realized pool (heuristic.allocate pool)) ∧
      ∀ quantum, 0 < quantum → (∀ job ∈ pool.jobs, job.length ≤ quantum) →
        Realized pool (RoundRobin.allocate quantum pool) := by
  have hv := Pool.valid_of_check valid
  refine ⟨?_, ?_, ?_⟩
  · intro engine
    exact (ListScheduling.plansPromptly_allocateBy engine valid).realized hv
  · intro heuristic
    exact (heuristic.plansPromptly_allocate valid).realized hv
  · intro quantum hq hshort
    exact (RoundRobin.plansPromptly_allocate hq valid hshort).realized hv

/-- A slow and a fast unit for two jobs, of which the longer one arrives later. -/
def slowAndFast : Pool Binary64 where
  jobs := [⟨0, "early", 100, 0, none, 100⟩, ⟨1, "late", 200, Quantity.ofNat 1, none, 200⟩]
  units := [⟨0, "slow", Quantity.ofNat 50, 0⟩, ⟨1, "fast", Quantity.ofNat 100, 0⟩]

theorem slowAndFast_check : slowAndFast.check = .ok () :=
  slowAndFast.check_eq_ok_iff.mpr (by decide +kernel)

theorem planned_times_realized_slowAndFast :
    slowAndFast.check = .ok () ∧
      Realized slowAndFast (ListScheduling.allocateBy [] slowAndFast) ∧
      Realized slowAndFast (BatchHeuristic.minMin.allocate slowAndFast) ∧
      Realized slowAndFast (RoundRobin.allocate 200 slowAndFast) := by
  have hshort : ∀ job ∈ slowAndFast.jobs, job.length ≤ 200 := by decide
  have h := planned_times_realized slowAndFast slowAndFast_check
  exact ⟨slowAndFast_check, h.1 [], h.2.1 .minMin, h.2.2 200 (by decide) hshort⟩

end JobAllocation
