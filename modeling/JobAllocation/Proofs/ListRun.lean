import JobAllocation.ListScheduling
import JobAllocation.Proofs.Realization

/-!
# List scheduling makes prompt plans

The list scheduler has one clock for all units and starts no job before it. The clock still delays
no job: before every pick it is at most the ready time of every unit, or at most the arrival of
every pending job. In the first case the units decide when the picked job starts, in the second the
job does.
-/
namespace JobAllocation.ListScheduling

variable {T : Type} [Quantity T]

theorem run_of_pick?_none {engine : RuleEngine T} {clock : T} {pending : List (Job T)}
    {units : List (ExecutionUnit T)}
    (h : pick? engine (decisionTime clock pending) pending = none) :
    run engine clock pending units = .ok ([], units) := by
  rw [run]
  split
  · rfl
  · next h' => simp [h] at h'

theorem run_of_pick?_some {engine : RuleEngine T} {clock : T} {pending : List (Job T)}
    {units : List (ExecutionUnit T)} {job : Job T} {offer : Offer T}
    (h : pick? engine (decisionTime clock pending) pending = some job)
    (ho : earliestOffer job units (decisionTime clock pending) = .ok offer) :
    run engine clock pending units =
      (run engine (Quantity.larger (decisionTime clock pending)
        (firstReady (advanceUnit units offer.unit.id offer.finish))) (without job pending)
        (advanceUnit units offer.unit.id offer.finish)).map
          fun (rest, units) => (offer.completion job :: rest, units) := by
  rw [run]
  split
  · next h' => simp [h] at h'
  · next picked h' =>
    obtain rfl : picked = job := by simpa [h] using h'.symm
    simp only [ho, bind, Except.bind]
    cases run engine (Quantity.larger (decisionTime clock pending)
        (firstReady (advanceUnit units offer.unit.id offer.finish))) (without picked pending)
        (advanceUnit units offer.unit.id offer.finish) <;> rfl

/-- The clock is behind the whole pool or behind every arrival. -/
def Gated (clock : T) (pending : List (Job T)) (units : List (ExecutionUnit T)) : Prop :=
  (∀ unit ∈ units, clock ≤ unit.ready) ∨ ∀ job ∈ pending, clock ≤ job.arrival

variable [LawfulQuantity T]

theorem firstReady_le {units : List (ExecutionUnit T)} (hw : Working units)
    {unit : ExecutionUnit T} (hu : unit ∈ units) : firstReady units ≤ unit.ready :=
  Quantity.smallest_le (List.forall_mem_map.mpr hw.ready_nonneg) (List.mem_map_of_mem hu)

theorem nonneg_firstReady {units : List (ExecutionUnit T)} (hw : Working units) :
    0 ≤ firstReady units := Quantity.nonneg_smallest (List.forall_mem_map.mpr hw.ready_nonneg)

/-- The first pick is made when the first unit is free. -/
theorem gated_initial (pending : List (Job T)) {units : List (ExecutionUnit T)}
    (hw : Working units) : Gated (firstReady units) pending units :=
  .inl fun _ hu => firstReady_le hw hu

theorem nonneg_decisionTime {clock : T} (hc : 0 ≤ clock) (pending : List (Job T)) :
    0 ≤ decisionTime clock pending := by
  unfold decisionTime
  split
  · exact Quantity.nonneg_larger hc _
  · exact hc

/-- The clock jumps to the earliest arrival, so it still passes no pending job. -/
theorem gated_decisionTime {clock : T} {pending : List (Job T)} {units : List (ExecutionUnit T)}
    (hc : 0 ≤ clock) (ha : ∀ job ∈ pending, 0 ≤ job.arrival) (hg : Gated clock pending units) :
    Gated (decisionTime clock pending) pending units := by
  unfold decisionTime
  split
  · next hnone =>
    -- Nobody has arrived, so the clock is at the first arrival or short of it.
    refine .inr fun job hj => ?_
    rw [List.isEmpty_iff, arrived, List.filter_eq_nil_iff] at hnone
    have hlate : ¬ job.arrival ≤ clock := by simpa using hnone job hj
    exact Quantity.larger_le hc (Quantity.le_of_not_le (ha job hj) hc hlate)
      (Quantity.smallest_le (List.forall_mem_map.mpr ha) (List.mem_map_of_mem hj))
  · exact hg

/-- At the time of a pick some pending job has arrived. -/
theorem exists_pick? (engine : RuleEngine T) {clock : T} {pending : List (Job T)} (hc : 0 ≤ clock)
    (ha : ∀ job ∈ pending, 0 ≤ job.arrival) (hne : pending ≠ []) :
    ∃ job, pick? engine (decisionTime clock pending) pending = some job := by
  cases hp : pick? engine (decisionTime clock pending) pending with
  | some job => exact ⟨job, rfl⟩
  | none =>
    have hnone := Selection.best?_eq_none_iff.mp hp
    unfold decisionTime at hnone
    split at hnone
    · have hnonneg := List.forall_mem_map.mpr ha
      obtain ⟨arrival, hm, hle⟩ := Quantity.exists_le_smallest hnonneg (by simpa using hne)
      obtain ⟨job, hj, rfl⟩ := List.mem_map.mp hm
      have hjump := Quantity.right_le_larger hc (Quantity.nonneg_smallest hnonneg)
      rw [arrived, List.filter_eq_nil_iff] at hnone
      exact absurd (decide_eq_true (Quantity.le_trans hle hjump)) (hnone job hj)
    · next hsome => exact absurd (List.isEmpty_iff.mpr hnone) hsome

/-- The next clock is the time at which some unit is free again, or it has not moved. -/
theorem gated_next {now : T} {pending rest : List (Job T)} {units : List (ExecutionUnit T)}
    {id : UnitId} {time : T} (hn : 0 ≤ now) (hw : Working units) (hg : Gated now pending units)
    (hrest : rest ⊆ pending) :
    Gated (Quantity.larger now (firstReady (advanceUnit units id time))) rest
      (advanceUnit units id time) := by
  have hw' := hw.advance id time
  have hfirst := nonneg_firstReady hw'
  rcases LawfulQuantity.le_total hn hfirst with hle | hle
  · exact .inl fun unit hu => Quantity.le_trans (Quantity.larger_le hn hle
      (Quantity.le_refl hfirst)) (firstReady_le hw' hu)
  · have hnow := Quantity.larger_le hn (Quantity.le_refl hn) hle
    rcases hg with hready | harrival
    · refine .inl fun unit hu => ?_
      obtain ⟨before, hb, -, hr, -⟩ := exists_le_of_mem_advanceUnit hw hu
      exact Quantity.le_trans hnow (Quantity.le_trans (hready before hb) hr)
    · exact .inr fun job hj => Quantity.le_trans hnow (harrival job (hrest hj))

/-- Under a clock that is behind the pool or the arrivals, a job that has arrived starts as soon as
its unit is free. -/
theorem same_start {now : T} {pending : List (Job T)} {units : List (ExecutionUnit T)}
    (hw : Working units) (hg : Gated now pending units) {job : Job T}
    (hj : job ∈ pending) (ha : 0 ≤ job.arrival) (harrived : job.arrival ≤ now)
    {unit : ExecutionUnit T} (hu : unit ∈ units) :
    Quantity.Same (Quantity.larger unit.ready now) (Quantity.larger unit.ready job.arrival) := by
  have hready := hw.ready_nonneg unit hu
  refine ⟨Quantity.larger_le hready (Quantity.left_le_larger hready _) ?_,
    Quantity.larger_le_larger hready ha (Quantity.le_refl hready) harrived⟩
  rcases hg with hg | hg
  · exact Quantity.le_trans (hg unit hu) (Quantity.left_le_larger hready _)
  · exact Quantity.le_trans (hg job hj) (Quantity.right_le_larger hready ha)

omit [LawfulQuantity T] in
/-- The completions of a run, each of a picked job on the unit that offers the earliest end. -/
inductive Decisions (engine : RuleEngine T) :
    T → List (Job T) → List (ExecutionUnit T) → List (Completion T) → Prop where
  | nil {clock : T} {units : List (ExecutionUnit T)} : Decisions engine clock [] units []
  | cons {clock : T} {pending : List (Job T)} {units : List (ExecutionUnit T)} {job : Job T}
      {unit : ExecutionUnit T} {offer : Offer T} {rest : List (Completion T)}
      (picked : pick? engine (decisionTime clock pending) pending = some job)
      (unit_mem : unit ∈ units)
      (offer_eq : offer = Offer.on job (decisionTime clock pending) unit)
      (tail : Decisions engine
        (Quantity.larger (decisionTime clock pending)
          (firstReady (advanceUnit units unit.id offer.finish)))
        (without job pending) (advanceUnit units unit.id offer.finish) rest) :
      Decisions engine clock pending units (offer.completion job :: rest)

/-- A run ends, and with all pending jobs decided on. -/
theorem exists_decisions (engine : RuleEngine T) {clock : T} {pending : List (Job T)}
    {units : List (ExecutionUnit T)} (hw : Working units) (ha : ∀ job ∈ pending, 0 ≤ job.arrival)
    (hc : 0 ≤ clock) :
    ∃ plan, run engine clock pending units = .ok (plan, unitsAfter plan units) ∧
      Decisions engine clock pending units plan := by
  induction hlen : pending.length using Nat.strongRecOn generalizing clock pending units with
  | ind n ih =>
    subst hlen
    rcases eq_or_ne pending [] with rfl | hne
    · exact ⟨[], run_of_pick?_none rfl, .nil⟩
    · obtain ⟨job, hpick⟩ := exists_pick? engine hc ha hne
      have hmem := (mem_of_pick? hpick).1
      have hsub : without job pending ⊆ pending := List.eraseP_subset
      obtain ⟨unit, hu, hoffer⟩ := exists_earliestOffer hw job (decisionTime clock pending)
      obtain ⟨plan, hrun, hdecisions⟩ := ih _ (length_without_lt hmem)
        (hw.advance unit.id (Offer.on job (decisionTime clock pending) unit).finish)
        (fun j hj => ha j (hsub hj))
        (Quantity.nonneg_larger (nonneg_decisionTime hc pending) _) rfl
      refine ⟨_, ?_, .cons hpick hu rfl hdecisions⟩
      rw [run_of_pick?_some hpick hoffer]
      exact congrArg (Except.map _) hrun

omit [LawfulQuantity T] in
theorem Decisions.map_job_perm {engine : RuleEngine T} {clock : T} {pending : List (Job T)}
    {units : List (ExecutionUnit T)} {plan : List (Completion T)}
    (h : Decisions engine clock pending units plan) :
    (plan.map (·.job)).Perm (pending.map (·.id)) := by
  induction h with
  | nil => exact .nil
  | @cons clock pending units job unit offer rest picked _ offer_eq _ ih =>
    subst offer_eq
    exact (ih.cons job.id).trans (map_id_eraseP (mem_of_pick? picked).1).symm

theorem Decisions.prompt {engine : RuleEngine T} {clock : T} {pending jobs : List (Job T)}
    {units : List (ExecutionUnit T)} {plan : List (Completion T)}
    (h : Decisions engine clock pending units plan) (hw : Working units)
    (hj : ∀ job ∈ pending, ∃ source ∈ jobs, source.reset = job)
    (ha : ∀ job ∈ pending, 0 ≤ job.arrival) (hc : 0 ≤ clock) (hg : Gated clock pending units) :
    Prompt jobs units plan := by
  induction h with
  | nil => exact .nil
  | @cons clock pending units job unit offer rest picked unit_mem offer_eq _ ih =>
    subst offer_eq
    have hnow := nonneg_decisionTime hc pending
    have hgate := gated_decisionTime hc ha hg
    obtain ⟨hmem, harrived⟩ := mem_of_pick? picked
    obtain ⟨source, hsource, rfl⟩ := hj job hmem
    have hsub : without source.reset pending ⊆ pending := List.eraseP_subset
    have hprompt := ih (hw.advance _ _) (fun j hm => hj j (hsub hm))
      (fun j hm => ha j (hsub hm)) (Quantity.nonneg_larger hnow _) (gated_next hnow hw hgate hsub)
    have hstart := same_start hw hgate hmem (ha _ hmem) harrived unit_mem
    exact .cons hsource unit_mem rfl rfl hstart rfl hprompt

theorem exists_prompt_run (engine : RuleEngine T) {jobs : List (Job T)} {clock : T}
    {pending : List (Job T)} {units : List (ExecutionUnit T)} (hw : Working units)
    (hj : ∀ job ∈ pending, ∃ source ∈ jobs, source.reset = job)
    (ha : ∀ job ∈ pending, 0 ≤ job.arrival) (hc : 0 ≤ clock) (hg : Gated clock pending units) :
    ∃ plan, run engine clock pending units = .ok (plan, unitsAfter plan units) ∧
      Prompt jobs units plan ∧ (plan.map (·.job)).Perm (pending.map (·.id)) := by
  obtain ⟨plan, hrun, hdecisions⟩ := exists_decisions engine hw ha hc
  exact ⟨plan, hrun, hdecisions.prompt hw hj ha hc hg, hdecisions.map_job_perm⟩

omit [LawfulQuantity T] in
theorem allocateBy_of_run {engine : RuleEngine T} {pool : Pool T} (h : pool.check = .ok ())
    {plan : List (Completion T)} {units : List (ExecutionUnit T)}
    (hrun : run engine (firstReady pool.units) pool.freshJobs pool.units = .ok (plan, units)) :
    allocateBy engine pool =
      .ok ⟨.ofCompletions plan, (Schedule.ofCompletions plan).settle pool.freshJobs, units⟩ := by
  simp only [allocateBy, h, hrun, bind, Except.bind, pure, Except.pure]

theorem exists_decisions_allocateBy (engine : RuleEngine T) {pool : Pool T}
    (h : pool.check = .ok ()) :
    ∃ run, allocateBy engine pool = .ok run ∧
      Decisions engine (firstReady pool.units) pool.freshJobs pool.units
        run.schedule.completions := by
  have hv := Pool.valid_of_check h
  obtain ⟨plan, hrun, hdecisions⟩ := exists_decisions engine hv.working hv.fresh_arrival_nonneg
    (nonneg_firstReady hv.working)
  exact ⟨_, allocateBy_of_run h hrun, hdecisions⟩

theorem exists_commits_allocateBy (engine : RuleEngine T) {pool : Pool T}
    (h : pool.check = .ok ()) : ∃ run, allocateBy engine pool = .ok run ∧ Commits pool run := by
  have hv := Pool.valid_of_check h
  obtain ⟨plan, hrun, hprompt, hperm⟩ := exists_prompt_run engine hv.working
    (fun _ hj => Pool.exists_of_mem_freshJobs hj) hv.fresh_arrival_nonneg
    (nonneg_firstReady hv.working) (gated_initial pool.freshJobs hv.working)
  exact ⟨_, allocateBy_of_run h hrun,
    commits_of_prompt hprompt (hperm.trans (.of_eq pool.map_id_freshJobs))⟩

/-- Every job of the pool is completed once. -/
theorem jobs_perm_of_allocateBy {engine : RuleEngine T} {pool : Pool T} {run : Allocation T}
    (h : pool.check = .ok ()) (hok : allocateBy engine pool = .ok run) :
    (run.schedule.completions.map (·.job)).Perm (pool.jobs.map (·.id)) := by
  obtain ⟨_, hagain, hcommits⟩ := exists_commits_allocateBy engine h
  obtain rfl := Except.ok.inj (hok.symm.trans hagain)
  exact hcommits.jobs_perm

theorem plansPromptly_allocateBy (engine : RuleEngine T) {pool : Pool T} (h : pool.check = .ok ()) :
    PlansPromptly pool (allocateBy engine pool) := by
  obtain ⟨run, hok, hcommits⟩ := exists_commits_allocateBy engine h
  exact ⟨run, hok, hcommits.prompt, hcommits.jobs_perm⟩

end JobAllocation.ListScheduling
