import JobAllocation.Proofs.Choices
import JobAllocation.Proofs.HillClimbingRun
import JobAllocation.Proofs.ListRun
import JobAllocation.Proofs.SingleUnit

/-!
# In which order jobs are committed

Once every job has arrived, a chain of the usual rules commits the jobs in the order of its ranking,
whatever the units are. On one unit this order is all that the scheduler decides, as it is all that
an assignment decides of its execution.
-/
namespace JobAllocation

/-- Jobs that are among those with distinct numbers, and have the same numbers, are those jobs. -/
theorem perm_of_map_id {T : Type} {order jobs : List (Job T)} (hd : (jobs.map (·.id)).Nodup)
    (hsub : order ⊆ jobs) (hp : (order.map (·.id)).Perm (jobs.map (·.id))) : order.Perm jobs := by
  have hn : (order.map (·.id)).Nodup := hp.nodup_iff.mpr hd
  refine (List.perm_ext_iff_of_nodup (.of_map _ hn) (.of_map _ hd)).mpr fun job =>
    ⟨fun hm => hsub hm, fun hm => ?_⟩
  obtain ⟨found, hf, hid⟩ := List.mem_map.mp (hp.symm.subset (List.mem_map_of_mem hm))
  exact List.inj_on_of_nodup_map hd (hsub hf) hm hid ▸ hf

namespace ListScheduling

variable {T : Type}

theorem cons_without_perm {pending : List (Job T)} (hd : (pending.map (·.id)).Nodup) {job : Job T}
    (hm : job ∈ pending) : (job :: without job pending).Perm pending := by
  have hsub : without job pending ⊆ pending := List.eraseP_subset
  exact perm_of_map_id hd (List.cons_subset.mpr ⟨hm, hsub⟩) (map_id_eraseP hm).symm

variable [Quantity T] [LawfulQuantity T] [OrderedQuantity T]

omit [OrderedQuantity T] [LawfulQuantity T] in
/-- While some job is pending and all have arrived, the next pick is made at once. -/
theorem decisionTime_of_arrived {clock : T} {pending : List (Job T)}
    (ha : ∀ job ∈ pending, job.arrival ≤ clock) (hne : pending ≠ []) :
    arrived clock pending = pending ∧ decisionTime clock pending = clock := by
  have harrived : arrived clock pending = pending :=
    List.filter_eq_self.mpr fun job hj => decide_eq_true (ha job hj)
  refine ⟨harrived, ?_⟩
  rw [decisionTime, harrived, if_neg (by simpa using hne)]

/-- Jobs that have all arrived are committed in the order of the ranking. -/
theorem Decisions.exists_ranked {chain : RuleChain} {clock : T} {pending : List (Job T)}
    {units : List (ExecutionUnit T)} {plan : List (Completion T)}
    (h : Decisions chain.engine clock pending units plan) (hd : (pending.map (·.id)).Nodup)
    (ha : ∀ job ∈ pending, job.arrival ≤ clock) (hc : 0 ≤ clock) :
    ∃ order : List (Job T), order.Perm pending ∧ plan.map (·.job) = order.map (·.id) ∧
      order.Pairwise fun a b => chain.ranking.precedes a b = true := by
  induction h with
  | nil => exact ⟨[], .refl _, rfl, .nil⟩
  | @cons clock pending units job unit offer rest picked _ _ _ ih =>
    have hm := (mem_of_pick? picked).1
    obtain ⟨harrived, hnow⟩ := decisionTime_of_arrived ha (List.ne_nil_of_mem hm)
    have hsub : without job pending ⊆ pending := List.eraseP_subset
    have hperm := cons_without_perm hd hm
    have hrest := (hperm.map _).nodup_iff.mpr hd
    rw [List.map_cons, List.nodup_cons] at hrest
    rw [hnow] at ih
    -- The clock only moves forwards, so the other jobs have arrived at the next pick too.
    obtain ⟨order, horder, hplan, hsorted⟩ := ih hrest.2
      (fun other ho =>
        Quantity.le_trans (ha other (hsub ho)) (Quantity.left_le_larger hc _))
      (Quantity.nonneg_larger hc _)
    refine ⟨job :: order, (horder.cons job).trans hperm, congrArg (job.id :: ·) hplan,
      .cons (fun other ho => ?_) hsorted⟩
    have hother := horder.subset ho
    rw [pick?, RuleChain.rankingAt_engine, hnow, harrived] at picked
    refine ((Ranking.decides _ hd).eq_or_prefers picked other (hsub hother)).resolve_left ?_
    rintro rfl
    exact hrest.1 (List.mem_map_of_mem hother)

/-- Once every job has arrived by the time any unit is free, the completions are listed in the order
of the ranking. -/
theorem exists_ranked_allocation (chain : RuleChain) {pool : Pool T} (valid : pool.check = .ok ())
    (arrived : ∀ job ∈ pool.jobs, ∀ unit ∈ pool.units, job.arrival ≤ unit.ready) :
    ∃ run, ∃ ranked : List (Job T), allocateBy chain.engine pool = .ok run ∧
      ranked.Perm pool.freshJobs ∧
      run.schedule.completions.map (·.job) = ranked.map (·.id) ∧
      ranked.Pairwise fun a b => chain.ranking.precedes a b = true := by
  have hv := Pool.valid_of_check valid
  have hnow : ∀ job ∈ pool.freshJobs, job.arrival ≤ firstReady pool.units := by
    intro job hj
    obtain ⟨source, hs, rfl⟩ := Pool.exists_of_mem_freshJobs hj
    obtain ⟨ready, hready, hle⟩ := Quantity.exists_le_smallest
      (List.forall_mem_map.mpr hv.working.ready_nonneg) (by simpa using hv.units_ne_nil)
    obtain ⟨unit, hu, rfl⟩ := List.mem_map.mp hready
    exact Quantity.le_trans (arrived source hs unit hu) hle
  obtain ⟨run, hok, hdecisions⟩ := exists_decisions_allocateBy chain.engine valid
  obtain ⟨ranked, hranked, hjobs, hsorted⟩ := hdecisions.exists_ranked
    (pool.map_id_freshJobs ▸ hv.jobs_distinct) hnow (nonneg_firstReady hv.working)
  exact ⟨run, ranked, hok, hranked, hjobs, hsorted⟩

omit [LawfulQuantity T] [OrderedQuantity T] in
/-- No job is taken before one with a lower score on the leading rule. -/
theorem isLE_of_precedes {score : Job T → T} {ranking : Ranking T} {a b : Job T}
    (h : Ranking.precedes (score :: ranking) a b = true) :
    (Quantity.totalOrder (score a) (score b)).isLE = true := by
  rw [Ranking.precedes, beq_iff_eq] at h
  rcases Ordering.then_eq_lt.mp h with hlt | ⟨heq, -⟩
  · exact Ordering.isLE_of_eq_lt hlt
  · exact Ordering.isLE_of_eq_eq heq

end ListScheduling

/-- The completions of jobs that the only unit runs in turn from its ready time on, each once it has
arrived. -/
def ExecutionUnit.inSequence (unit : ExecutionUnit Exact) (order : List (Job Exact)) :
    List (Completion Exact) :=
  oneByOne unit.id unit.speed.value unit.ready.value order

/-- The completions of jobs that the only unit runs back to back, from its ready time on. -/
def ExecutionUnit.inTurn (unit : ExecutionUnit Exact) (order : List (Job Exact)) :
    List (Completion Exact) :=
  (backToBack unit.id unit.speed.value unit.ready.value order).map (·.1)

section OneUnit

variable {pool : Pool Exact} {unit : ExecutionUnit Exact}

theorem Pool.Valid.of_single (hv : pool.Valid) (single : pool.units = [unit]) : unit.Valid :=
  hv.units_valid unit (single ▸ List.mem_singleton.mpr rfl)

theorem ExecutionUnit.Valid.speed_value_pos (h : unit.Valid) : 0 < unit.speed.value :=
  Exact.value_pos (Exact.eq_rational_of_isFinite h.speed_finite) h.speed_pos

/-- A prompt plan of all jobs runs them in turn, in some order. -/
theorem Prompt.exists_sequence (hv : pool.Valid) (single : pool.units = [unit])
    {plan : List (Completion Exact)} (hp : Prompt pool.jobs pool.units plan)
    (hperm : (plan.map (·.job)).Perm (pool.jobs.map (·.id))) :
    ∃ order : List (Job Exact), order.Perm pool.jobs ∧ plan.map (·.job) = order.map (·.id) ∧
      plan = unit.inSequence order := by
  have hunit := hv.of_single single
  obtain ⟨order, hsub, rfl⟩ := hp.exists_oneByOne single
    (Exact.eq_rational_of_isFinite hunit.ready_finite)
    (Exact.eq_rational_of_isFinite hunit.speed_finite) hunit.speed_value_pos
    fun job hj => Exact.eq_rational_of_isFinite (hv.jobs_valid job hj).arrival_finite
  have hids := map_job_oneByOne unit.id unit.speed.value unit.ready.value order
  exact ⟨order, perm_of_map_id hv.jobs_distinct hsub (hids ▸ hperm), hids, rfl⟩

theorem Execution.map_job_of_order {jobs listed : List (Job Exact)}
    {units : List (ExecutionUnit Exact)} {id : UnitId} {plan : List (Completion Exact)}
    (h : execute ⟨listed.map fun job => (job.id, id)⟩ jobs units = .ok plan) :
    plan.map (·.job) = listed.map (·.id) := by
  rw [map_job_of_execute h, Assignment.jobs, List.map_map]
  rfl

/-- Whatever order an assignment lists the jobs in, its execution runs them in turn. -/
theorem Execution.exists_sequence (hv : pool.Valid) (single : pool.units = [unit])
    {listed : List (Job Exact)} (hl : listed.Perm pool.jobs) :
    ∃ order : List (Job Exact), order.Perm pool.jobs ∧
      execute ⟨listed.map fun job => (job.id, unit.id)⟩ pool.jobs pool.units =
        .ok (unit.inSequence order) := by
  have hcomplete : (⟨listed.map fun job => (job.id, unit.id)⟩ : Assignment).Complete pool.jobs
      pool.units := by
    constructor
    · rw [Assignment.jobs, List.map_map]
      exact hl.map _
    · intro entry he
      obtain ⟨job, -, rfl⟩ := List.mem_map.mp he
      simp [single]
  obtain ⟨plan, hrun, hprompt, hperm⟩ := exists_prompt_execute hv hcomplete
  obtain ⟨order, horder, -, rfl⟩ := hprompt.exists_sequence hv single hperm
  exact ⟨order, horder, hrun⟩

/-- If all jobs have arrived by the time the unit is free, it runs them back to back. -/
theorem inSequence_eq_inTurn (hv : pool.Valid) (single : pool.units = [unit])
    (arrived : ∀ job ∈ pool.jobs, job.arrival ≤ unit.ready) {order : List (Job Exact)}
    (hsub : order ⊆ pool.jobs) : unit.inSequence order = unit.inTurn order := by
  have hunit := hv.of_single single
  refine oneByOne_eq_backToBack hunit.speed_value_pos fun job hj => Exact.rational_le_iff.mp ?_
  rw [← Exact.eq_rational_of_isFinite (hv.jobs_valid job (hsub hj)).arrival_finite,
    ← Exact.eq_rational_of_isFinite hunit.ready_finite]
  exact arrived job (hsub hj)

theorem Execution.exists_order (hv : pool.Valid) (single : pool.units = [unit])
    (arrived : ∀ job ∈ pool.jobs, job.arrival ≤ unit.ready) {listed : List (Job Exact)}
    (hl : listed.Perm pool.jobs) :
    ∃ order : List (Job Exact), order.Perm pool.jobs ∧
      execute ⟨listed.map fun job => (job.id, unit.id)⟩ pool.jobs pool.units =
        .ok (unit.inTurn order) := by
  obtain ⟨order, horder, hrun⟩ := exists_sequence hv single hl
  exact ⟨order, horder, inSequence_eq_inTurn hv single arrived horder.subset ▸ hrun⟩

/-- A chain of the usual rules runs the jobs in turn, in the order of its ranking. -/
theorem ListScheduling.exists_ranked_order (chain : RuleChain) (valid : pool.check = .ok ())
    (single : pool.units = [unit]) (arrived : ∀ job ∈ pool.jobs, job.arrival ≤ unit.ready) :
    ∃ run, ∃ order : List (Job Exact), allocateBy chain.engine pool = .ok run ∧
      order.Perm pool.jobs ∧
      (order.map Job.reset).Pairwise (fun a b => chain.ranking.precedes a b = true) ∧
      run.schedule = .ofCompletions (unit.inTurn order) ∧
      run.pool.jobs = pool.jobs.map Job.markCompleted := by
  have hv := Pool.valid_of_check valid
  have hids : (pool.freshJobs.map (·.id)).Nodup := pool.map_id_freshJobs ▸ hv.jobs_distinct
  obtain ⟨run, ranked, hok, hranked, hjobs, hsorted⟩ := exists_ranked_allocation chain valid
    fun job hj other ho => List.mem_singleton.mp (single ▸ ho) ▸ arrived job hj
  obtain ⟨_, hagain, hcommits⟩ := exists_commits_allocateBy chain.engine valid
  obtain rfl := Except.ok.inj (hok.symm.trans hagain)
  obtain ⟨order, horder, hplan, heq⟩ :=
    hcommits.prompt.exists_sequence hv single hcommits.jobs_perm
  -- The plan names its jobs in the order of the ranking, and their numbers tell which they are.
  have hreset : order.map Job.reset = ranked := by
    refine eq_of_map_eq hids (horder.map Job.reset).subset hranked.subset ?_
    rw [List.map_map, ← hjobs]
    exact hplan.symm
  refine ⟨run, order, hok, horder, hreset ▸ hsorted, ?_, hcommits.jobs_eq⟩
  rw [← inSequence_eq_inTurn hv single arrived horder.subset, ← heq]
  exact hcommits.schedule_eq

end OneUnit
end JobAllocation
