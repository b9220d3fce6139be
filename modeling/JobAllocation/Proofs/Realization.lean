import JobAllocation.Execution
import JobAllocation.Proofs.WorkingUnits

/-!
# Prompt plans are realized

A plan is prompt if every completion starts as soon as its unit is free and its job has arrived, no
matter what other units do. The assignment of a prompt plan, carried out on the pool for which it
was made, gives the completions of the plan at times that agree.

The execution keeps a clock for each unit and the plan keeps ready times. They agree after every
entry, which is all that the next entry needs.
-/
namespace JobAllocation

variable {T : Type} [Quantity T]

omit [Quantity T] in
theorem findJob?_of_mem {jobs : List (Job T)} (hd : (jobs.map (·.id)).Nodup) {job : Job T}
    (hj : job ∈ jobs) : findJob? jobs job.id = some job := findRev?_eq_of_mem hd hj

omit [Quantity T] in
theorem findUnit?_of_mem {units : List (ExecutionUnit T)} (hd : (units.map (·.id)).Nodup)
    {unit : ExecutionUnit T} (hu : unit ∈ units) : findUnit? units unit.id = some unit :=
  findRev?_eq_of_mem hd hu

omit [Quantity T] in
theorem mem_of_findJob? {jobs : List (Job T)} {id : JobId} {job : Job T}
    (h : findJob? jobs id = some job) : job ∈ jobs ∧ job.id = id := mem_of_findRev? h

omit [Quantity T] in
theorem mem_of_findUnit? {units : List (ExecutionUnit T)} {id : UnitId} {unit : ExecutionUnit T}
    (h : findUnit? units id = some unit) : unit ∈ units ∧ unit.id = id := mem_of_findRev? h

omit [Quantity T] in
theorem findJob?_eq_none_iff {jobs : List (Job T)} (hd : (jobs.map (·.id)).Nodup) {id : JobId} :
    findJob? jobs id = none ↔ id ∉ jobs.map (·.id) := findRev?_eq_none_iff hd

omit [Quantity T] in
theorem findUnit?_eq_none_iff {units : List (ExecutionUnit T)} (hd : (units.map (·.id)).Nodup)
    {id : UnitId} : findUnit? units id = none ↔ id ∉ units.map (·.id) := findRev?_eq_none_iff hd

omit [Quantity T] in
/-- Committing a job takes its number out of those that are pending. -/
theorem map_id_eraseP {job : Job T} {pending : List (Job T)} (h : job ∈ pending) :
    (pending.map (·.id)).Perm (job.id :: (pending.eraseP (·.id == job.id)).map (·.id)) := by
  obtain ⟨found, front, back, -, hid, rfl, herase⟩ :=
    List.exists_of_eraseP (p := (·.id == job.id)) h (beq_self_eq_true job.id)
  rw [herase, ← eq_of_beq hid, List.map_append, List.map_append, List.map_cons]
  exact List.perm_middle

theorem Assignment.rebind_of_notMem {job : JobId} {unit : UnitId} {entries : List (JobId × UnitId)}
    (h : job ∉ entries.map (·.1)) :
    Assignment.rebind job unit entries = entries ++ [(job, unit)] := by
  induction entries with
  | nil => rfl
  | cons entry rest ih =>
    rw [List.map_cons, List.mem_cons, not_or] at h
    rw [Assignment.rebind, if_neg (Ne.symm h.1), ih h.2, List.cons_append]

/-- Pairs of distinct jobs are the entries of the assignment made from them. -/
theorem Assignment.entries_ofPairs {pairs : List (JobId × UnitId)}
    (h : (pairs.map (·.1)).Nodup) : (Assignment.ofPairs pairs).entries = pairs := by
  have key (a : Assignment) (hn : ((a.entries ++ pairs).map (·.1)).Nodup) :
      (pairs.foldl (fun a pair => a.assign pair.1 pair.2) a).entries = a.entries ++ pairs := by
    clear h
    induction pairs generalizing a with
    | nil => simp
    | cons pair rest ih =>
      have hnew : pair.1 ∉ a.entries.map (·.1) := by
        rw [List.map_append, List.map_cons, List.nodup_append] at hn
        exact fun hm => hn.2.2 _ hm _ List.mem_cons_self rfl
      have hassign : (a.assign pair.1 pair.2).entries = a.entries ++ [pair] :=
        Assignment.rebind_of_notMem hnew
      rw [List.foldl_cons, ih, hassign, List.append_assoc, List.singleton_append]
      rwa [hassign, List.append_assoc, List.singleton_append]
  exact key .empty h

theorem Assignment.unitOf?_isSome_of_mem {a : Assignment} {job : JobId}
    (h : job ∈ a.entries.map (·.1)) : (a.unitOf? job).isSome := by
  rw [Assignment.unitOf?, List.lookup_isSome_iff]
  obtain ⟨pair, hp, rfl⟩ := List.mem_map.mp h
  exact ⟨pair, hp, beq_self_eq_true _⟩

/-- One job on one unit, at times that agree. -/
structure Completion.Agrees (a b : Completion T) : Prop where
  job : a.job = b.job
  unit : a.unit = b.unit
  start : Quantity.Same a.start b.start
  finish : Quantity.Same a.finish b.finish

/-- Completions that can be committed in turn, each as soon as its unit is free and its job has
arrived. -/
inductive Prompt (jobs : List (Job T)) : List (ExecutionUnit T) → List (Completion T) → Prop where
  | nil {units : List (ExecutionUnit T)} : Prompt jobs units []
  | cons {units : List (ExecutionUnit T)} {job : Job T} {unit : ExecutionUnit T}
      {c : Completion T} {rest : List (Completion T)}
      (job_mem : job ∈ jobs) (unit_mem : unit ∈ units)
      (job_eq : c.job = job.id) (unit_eq : c.unit = unit.id)
      (start_same : Quantity.Same c.start (Quantity.larger unit.ready job.arrival))
      (finish_eq : c.finish = c.start + Quantity.ofNat job.length / unit.speed)
      (tail : Prompt jobs (advanceUnit units unit.id c.finish) rest) :
      Prompt jobs units (c :: rest)

/-- Some units after the completions of a plan have been committed. -/
def unitsAfter (plan : List (Completion T)) (units : List (ExecutionUnit T)) :
    List (ExecutionUnit T) :=
  plan.foldl (fun units c => advanceUnit units c.unit c.finish) units

/-- The clocks of an execution on `original` units agree with the ready times of a plan. -/
def InStep (original : List (ExecutionUnit T)) (clocks : Execution.Clocks T)
    (units : List (ExecutionUnit T)) : Prop :=
  ∀ unit ∈ units, ∃ first ∈ original, first.id = unit.id ∧ first.speed = unit.speed ∧
    Quantity.Same (clocks.at first) unit.ready

omit [Quantity T] in
theorem Execution.Clocks.at_cons (clocks : Execution.Clocks T) (id : UnitId) (time : T)
    (unit : ExecutionUnit T) :
    Execution.Clocks.at ((id, time) :: clocks) unit =
      if unit.id = id then time else clocks.at unit := by
  unfold Execution.Clocks.at
  rw [List.lookup_cons]
  by_cases h : unit.id = id
  · simp [h]
  · simp [h, beq_eq_false_iff_ne.mpr h]

namespace Execution

variable {jobs : List (Job T)} {units : List (ExecutionUnit T)} {plan : List (Completion T)}

/-- A run that succeeds has found the job and the unit of its first entry, and starts the job as
soon as the clock of the unit and the arrival allow. -/
theorem exists_of_run_cons {seen : List JobId} {clocks : Clocks T} {id : JobId} {unitId : UnitId}
    {rest : List (JobId × UnitId)}
    (h : run jobs units seen clocks ((id, unitId) :: rest) = .ok plan) :
    ∃ job unit time later, findJob? jobs id = some job ∧ findUnit? units unitId = some unit ∧
      executionTime job.length unit = .ok time ∧
      run jobs units (id :: seen)
        ((unitId, Quantity.larger (clocks.at unit) job.arrival + time) :: clocks) rest =
          .ok later ∧
      plan = ⟨id, unitId, Quantity.larger (clocks.at unit) job.arrival,
        Quantity.larger (clocks.at unit) job.arrival + time⟩ :: later := by
  unfold run at h
  split at h
  · cases h
  split at h
  · cases h
  next job hjob =>
    split at h
    · cases h
    next unit hunit =>
      obtain ⟨time, htime, h⟩ := exists_of_bind_eq_ok h
      obtain ⟨later, hlater, h⟩ := exists_of_bind_eq_ok h
      cases h
      exact ⟨job, unit, time, later, hjob, hunit, htime, hlater, rfl⟩

/-- An execution carries out the entries in their order. -/
theorem map_entry_of_run {seen : List JobId} {clocks : Clocks T} {entries : List (JobId × UnitId)}
    (h : run jobs units seen clocks entries = .ok plan) :
    plan.map (fun c => (c.job, c.unit)) = entries := by
  induction entries generalizing seen clocks plan with
  | nil =>
    cases h
    rfl
  | cons entry rest ih =>
    obtain ⟨_, _, _, later, -, -, -, hlater, rfl⟩ := exists_of_run_cons h
    rw [List.map_cons, ih hlater]

variable {a : Assignment}

theorem run_of_execute (h : execute a jobs units = .ok plan) :
    run jobs units [] [] a.entries = .ok plan := by
  unfold execute at h
  split at h
  · cases h
  · exact h

theorem map_entry_of_execute (h : execute a jobs units = .ok plan) :
    plan.map (fun c => (c.job, c.unit)) = a.entries := map_entry_of_run (run_of_execute h)

theorem map_job_of_execute (h : execute a jobs units = .ok plan) :
    plan.map (·.job) = a.jobs := by
  rw [Assignment.jobs, ← map_entry_of_execute h, List.map_map]
  rfl

end Execution

variable [LawfulQuantity T]

theorem inStep_initial {units : List (ExecutionUnit T)} (h : Working units) :
    InStep units [] units :=
  fun unit hu => ⟨unit, hu, rfl, rfl, Quantity.Same.refl (h.ready_nonneg unit hu)⟩

/-- The clock and the ready time of a unit still agree when both move to the end of an entry. The
ready time only moves forwards, but an entry does not end before its unit is free. -/
theorem InStep.advance {original units : List (ExecutionUnit T)} {clocks : Execution.Clocks T}
    (h : InStep original clocks units) (hw : Working units) {unit : ExecutionUnit T}
    (hu : unit ∈ units) {planned realized : T} (hle : unit.ready ≤ planned)
    (hs : Quantity.Same realized planned) :
    InStep original ((unit.id, realized) :: clocks) (advanceUnit units unit.id planned) := by
  intro later hl
  obtain ⟨before, hb, hid, hspeed, hready⟩ := exists_of_mem_advanceUnit hl
  obtain ⟨first, hf, hfid, hfspeed, hsame⟩ := h before hb
  refine ⟨first, hf, hfid.trans hid, hfspeed.trans hspeed, ?_⟩
  rw [Execution.Clocks.at_cons, hready, hfid]
  -- Only the clock and the ready time of this unit move.
  by_cases heq : before.id = unit.id
  · obtain rfl := List.inj_on_of_nodup_map hw.distinct hb hu heq
    rw [if_pos rfl]
    split
    · exact hs
    · next hn =>
      have hnonneg := hw.ready_nonneg before hb
      have hge : planned ≤ before.ready := Quantity.le_of_not_lt hnonneg
        (Quantity.le_trans hnonneg hle) fun hlt => hn ⟨rfl, hlt⟩
      exact hs.trans ⟨hge, hle⟩
  · rw [if_neg heq, if_neg fun hn => heq hn.1]
    exact hsame

/-- From a clock and a ready time that agree, both sides start a job at the same time, so they
finish it at the same time. -/
theorem same_times {clock ready arrival start work : T} (hready : 0 ≤ ready)
    (harrival : 0 ≤ arrival) (hwork : 0 ≤ work) (hclock : Quantity.Same clock ready)
    (hstart : Quantity.Same start (Quantity.larger ready arrival)) :
    Quantity.Same (Quantity.larger clock arrival) start ∧
      Quantity.Same (Quantity.larger clock arrival + work) (start + work) ∧
      ready ≤ start + work := by
  have hclock0 : 0 ≤ clock := Quantity.le_trans hready hclock.2
  have hmax0 := Quantity.nonneg_larger hready arrival
  have hstart0 : 0 ≤ start := Quantity.le_trans hmax0 hstart.2
  have hs : Quantity.Same (Quantity.larger clock arrival) start :=
    (hclock.larger hclock0 hready harrival harrival (Quantity.Same.refl harrival)).trans hstart.symm
  refine ⟨hs, hs.add (Quantity.nonneg_larger hclock0 arrival) hstart0 hwork, ?_⟩
  have hle := Quantity.le_trans (Quantity.left_le_larger hready arrival) hstart.2
  exact Quantity.le_trans hle (LawfulQuantity.le_add hstart0 hwork)

theorem Prompt.run_eq {jobs : List (Job T)} {original units : List (ExecutionUnit T)}
    {plan : List (Completion T)} {clocks : Execution.Clocks T} {seen : List JobId}
    (hp : Prompt jobs units plan) (hs : InStep original clocks units) (hw : Working units)
    (ho : (original.map (·.id)).Nodup) (hj : (jobs.map (·.id)).Nodup)
    (ha : ∀ job ∈ jobs, 0 ≤ job.arrival) (hn : (plan.map (·.job)).Nodup)
    (hseen : ∀ c ∈ plan, c.job ∉ seen) :
    ∃ realized, Execution.run jobs original seen clocks (plan.map fun c => (c.job, c.unit)) =
      .ok realized ∧ List.Forall₂ Completion.Agrees realized plan := by
  induction hp generalizing clocks seen with
  | nil => exact ⟨[], rfl, .nil⟩
  | @cons units job unit c rest job_mem unit_mem job_eq unit_eq start_same finish_eq _ ih =>
    obtain ⟨first, hf, hfid, hfspeed, hsame⟩ := hs unit unit_mem
    have hspeed := hw.speed_pos unit unit_mem
    have hwork := hw.work_nonneg unit_mem job.length
    obtain ⟨hstart, hfinish, hle⟩ :=
      same_times (hw.ready_nonneg unit unit_mem) (ha job job_mem) hwork hsame start_same
    rw [← finish_eq] at hfinish hle
    rw [← hfspeed] at hfinish hspeed
    have hseen_rest : ∀ d ∈ rest, d.job ∉ c.job :: seen := notMem_seen hn hseen
    rw [List.map_cons, List.nodup_cons] at hn
    obtain ⟨realized, hr, hagree⟩ := ih (hs.advance hw unit_mem hle hfinish)
      (hw.advance _ _) hn.2 hseen_rest
    refine ⟨⟨c.job, c.unit, Quantity.larger (clocks.at first) job.arrival,
      Quantity.larger (clocks.at first) job.arrival + Quantity.ofNat job.length / first.speed⟩ ::
        realized, ?_, .cons ⟨rfl, rfl, hstart, hfinish⟩ hagree⟩
    have hfind : findJob? jobs c.job = some job := job_eq ▸ findJob?_of_mem hj job_mem
    have hfindUnit : findUnit? original c.unit = some first :=
      unit_eq ▸ hfid ▸ findUnit?_of_mem ho hf
    rw [← unit_eq] at hr
    rw [List.map_cons, Execution.run, if_neg (hseen c List.mem_cons_self)]
    simp only [hfind, hfindUnit, executionTime_eq hspeed, bind, Except.bind, hr, pure, Except.pure]

/-- The allocation succeeds with a prompt plan of all jobs of the pool. -/
def PlansPromptly (pool : Pool T) (outcome : Except (AllocationError T) (Allocation T)) : Prop :=
  ∃ run, outcome = .ok run ∧ Prompt pool.jobs pool.units run.schedule.completions ∧
    (run.schedule.completions.map (·.job)).Perm (pool.jobs.map (·.id))

/-- The schedule is a prompt plan of all jobs, without slices. The pool that the allocation leaves
has its jobs done and its units as they are after the plan. -/
structure Commits (pool : Pool T) (run : Allocation T) : Prop where
  schedule_eq : run.schedule = .ofCompletions run.schedule.completions
  prompt : Prompt pool.jobs pool.units run.schedule.completions
  jobs_perm : (run.schedule.completions.map (·.job)).Perm (pool.jobs.map (·.id))
  jobs_eq : run.pool.jobs = pool.jobs.map Job.markCompleted
  units_eq : run.pool.units = unitsAfter run.schedule.completions pool.units

omit [Quantity T] [LawfulQuantity T] in
/-- A schedule of all jobs marks all of them completed. -/
theorem settle_freshJobs {pool : Pool T} {schedule : Schedule T}
    (h : (schedule.completions.map (·.job)).Perm (pool.jobs.map (·.id))) :
    schedule.settle pool.freshJobs = pool.jobs.map Job.markCompleted := by
  rw [Schedule.settle, Pool.freshJobs, List.map_map]
  refine List.map_congr_left fun job hj => ?_
  obtain ⟨c, hc, hid⟩ := List.mem_map.mp (h.symm.subset (List.mem_map_of_mem hj))
  have hany : schedule.completions.any (·.job == job.reset.id) = true :=
    List.any_eq_true.mpr ⟨c, hc, beq_iff_eq.mpr hid⟩
  rw [Function.comp_apply, if_pos hany]
  rfl

omit [LawfulQuantity T] in
/-- The allocation that the list and the batch policies make of a plan. -/
theorem commits_of_prompt {pool : Pool T} {plan : List (Completion T)}
    (hp : Prompt pool.jobs pool.units plan)
    (hperm : (plan.map (·.job)).Perm (pool.jobs.map (·.id))) :
    Commits pool ⟨.ofCompletions plan, (Schedule.ofCompletions plan).settle pool.freshJobs,
      unitsAfter plan pool.units⟩ :=
  ⟨rfl, hp, hperm, settle_freshJobs hperm, rfl⟩

/-- The allocation succeeds, and carrying out its assignment on the same pool gives the completions
that were planned: in the same order, with the same jobs and units, at times that agree. -/
def Realized (pool : Pool T) (outcome : Except (AllocationError T) (Allocation T)) : Prop :=
  ∃ run realized, outcome = .ok run ∧
    Execution.execute run.schedule.assignment pool.jobs pool.units = .ok realized ∧
    List.Forall₂ Completion.Agrees realized run.schedule.completions

theorem PlansPromptly.realized {pool : Pool T} (hv : pool.Valid)
    {outcome : Except (AllocationError T) (Allocation T)} (h : PlansPromptly pool outcome) :
    Realized pool outcome := by
  obtain ⟨run, hok, hp, hperm⟩ := h
  have hn : (run.schedule.completions.map (·.job)).Nodup := hperm.nodup_iff.mpr hv.jobs_distinct
  have hentries : run.schedule.assignment.entries =
      run.schedule.completions.map fun c => (c.job, c.unit) :=
    Assignment.entries_ofPairs (by rwa [List.map_map])
  have hassigned : pool.jobs.find? (fun job => (run.schedule.assignment.unitOf? job.id).isNone) =
      none := by
    rw [List.find?_eq_none]
    intro job hj
    have hm : job.id ∈ run.schedule.assignment.entries.map (·.1) := by
      rw [hentries, List.map_map]
      exact hperm.symm.subset (List.mem_map_of_mem hj)
    rw [Option.isNone_iff_eq_none, ← Option.not_isSome_iff_eq_none, not_not]
    exact Assignment.unitOf?_isSome_of_mem hm
  have hunseen : ∀ c ∈ run.schedule.completions, c.job ∉ ([] : List JobId) := by simp
  obtain ⟨realized, hr, hagree⟩ := hp.run_eq (inStep_initial hv.working) hv.working
    hv.units_distinct hv.jobs_distinct (fun job hj => (hv.jobs_valid job hj).arrival_nonneg) hn
    hunseen
  refine ⟨run, realized, hok, ?_, hagree⟩
  rw [Execution.execute, hassigned, hentries]
  exact hr

end JobAllocation
