import JobAllocation.BatchScheduling
import JobAllocation.Proofs.Realization

/-!
# Batch scheduling makes prompt plans

Every offer that a heuristic compares starts as soon as its unit is free and its job has arrived, so
whichever it commits, the plan stays prompt.
-/
namespace JobAllocation

namespace BatchHeuristic

variable {T : Type} [Quantity T]

/-- While jobs are pending, a round commits one of them, from its arrival on. -/
theorem exists_pick? (heuristic : BatchHeuristic) {pending : List (Job T)}
    {units : List (ExecutionUnit T)} (hw : Working units) (hne : pending ≠ []) :
    ∃ job ∈ pending, ∃ unit ∈ units,
      heuristic.pick? pending units = .ok (some (job, Offer.on job job.arrival unit)) := by
  have hbest : ∀ job ∈ pending, ∃ pick, bestOffer units job = .ok pick ∧
      ∃ unit ∈ units, pick = (job, Offer.on job job.arrival unit) := by
    intro job _
    obtain ⟨unit, hu, hoffer⟩ := exists_earliestOffer hw job job.arrival
    exact ⟨_, by simp [bestOffer, hoffer, bind, Except.bind, pure, Except.pure], unit, hu, rfl⟩
  obtain ⟨picks, hmap, hpicks⟩ := exists_mapM_ok hbest
  cases hsel : Selection.best? heuristic.prefers picks with
  | none =>
    rw [Selection.best?_eq_none_iff.mp hsel] at hpicks
    exact absurd (List.forall₂_nil_right_iff.mp hpicks) hne
  | some pick =>
    obtain ⟨job, hj, unit, hu, rfl⟩ := exists_of_mem_forall₂ hpicks (Selection.mem_of_best? hsel)
    refine ⟨job, hj, unit, hu, ?_⟩
    simp [pick?, hmap, hsel, bind, Except.bind, pure, Except.pure]

theorem run_nil (heuristic : BatchHeuristic) (units : List (ExecutionUnit T)) :
    heuristic.run [] units = .ok ([], units) := by
  rw [run]
  rfl

theorem run_of_pick? {heuristic : BatchHeuristic} {pending : List (Job T)}
    {units : List (ExecutionUnit T)} {job : Job T} {offer : Offer T}
    (h : heuristic.pick? pending units = .ok (some (job, offer))) :
    heuristic.run pending units =
      (heuristic.run (pending.eraseP (·.id == job.id))
        (advanceUnit units offer.unit.id offer.finish)).map
          fun (rest, units) => (offer.completion job :: rest, units) := by
  rw [run]
  split
  · next h' => simp [h] at h'
  · next h' => simp [h] at h'
  · next picked chosen h' =>
    obtain ⟨rfl, rfl⟩ : picked = job ∧ chosen = offer := by simpa [h, eq_comm] using h'
    simp only [bind, Except.bind]
    cases heuristic.run (pending.eraseP (·.id == picked.id))
      (advanceUnit units chosen.unit.id chosen.finish) <;> rfl

theorem allocate_of_run {heuristic : BatchHeuristic} {pool : Pool T} (h : pool.check = .ok ())
    {plan : List (Completion T)} {units : List (ExecutionUnit T)}
    (hrun : heuristic.run (pool.freshJobs.mergeSort (·.id ≤ ·.id)) pool.units =
      .ok (plan, units)) :
    heuristic.allocate pool =
      .ok ⟨.ofCompletions plan, (Schedule.ofCompletions plan).settle pool.freshJobs, units⟩ := by
  simp only [allocate, h, hrun, bind, Except.bind, pure, Except.pure]

/-- The completions of a run, each of the job that its round picks, on the unit that the job is
offered. -/
inductive Rounds (heuristic : BatchHeuristic) :
    List (Job T) → List (ExecutionUnit T) → List (Completion T) → Prop where
  | nil {units : List (ExecutionUnit T)} : Rounds heuristic [] units []
  | cons {pending : List (Job T)} {units : List (ExecutionUnit T)} {job : Job T}
      {unit : ExecutionUnit T} {rest : List (Completion T)}
      (picked : heuristic.pick? pending units = .ok (some (job, Offer.on job job.arrival unit)))
      (unit_mem : unit ∈ units)
      (tail : Rounds heuristic (pending.eraseP (·.id == job.id))
        (advanceUnit units unit.id (Offer.on job job.arrival unit).finish) rest) :
      Rounds heuristic pending units ((Offer.on job job.arrival unit).completion job :: rest)

/-- A run ends, and with a round for each pending job. -/
theorem exists_rounds (heuristic : BatchHeuristic) {pending : List (Job T)}
    {units : List (ExecutionUnit T)} (hw : Working units) :
    ∃ plan, heuristic.run pending units = .ok (plan, unitsAfter plan units) ∧
      Rounds heuristic pending units plan := by
  induction hlen : pending.length using Nat.strongRecOn generalizing pending units with
  | ind n ih =>
    subst hlen
    rcases eq_or_ne pending [] with rfl | hne
    · exact ⟨[], run_nil heuristic units, .nil⟩
    · obtain ⟨job, hmem, unit, hu, hpick⟩ := exists_pick? heuristic hw hne
      have hlt : (pending.eraseP (·.id == job.id)).length < pending.length := by
        have hlen := (map_id_eraseP hmem).length_eq
        rw [List.length_cons, List.length_map, List.length_map] at hlen
        omega
      obtain ⟨plan, hrun, hrounds⟩ := ih _ hlt
        (hw.advance unit.id (Offer.on job job.arrival unit).finish) rfl
      refine ⟨_, ?_, .cons hpick hu hrounds⟩
      rw [run_of_pick? hpick]
      exact congrArg (Except.map _) hrun

theorem exists_rounds_allocate (heuristic : BatchHeuristic) {pool : Pool T}
    (h : pool.check = .ok ()) :
    ∃ run, heuristic.allocate pool = .ok run ∧
      Rounds heuristic (pool.freshJobs.mergeSort (·.id ≤ ·.id)) pool.units
        run.schedule.completions := by
  obtain ⟨plan, hrun, hrounds⟩ :=
    exists_rounds heuristic (Pool.valid_of_check h).working
  exact ⟨_, allocate_of_run h hrun, hrounds⟩

namespace Rounds

variable {heuristic : BatchHeuristic} {pending jobs : List (Job T)}
  {units : List (ExecutionUnit T)} {plan : List (Completion T)}

theorem map_job_perm (h : Rounds heuristic pending units plan) :
    (plan.map (·.job)).Perm (pending.map (·.id)) := by
  induction h with
  | nil => exact .nil
  | @cons pending units job unit rest picked _ _ ih =>
    exact (ih.cons job.id).trans (map_id_eraseP (mem_of_pick? picked)).symm

theorem prompt [LawfulQuantity T] (h : Rounds heuristic pending units plan) (hw : Working units)
    (hj : ∀ job ∈ pending, ∃ source ∈ jobs, source.reset = job) : Prompt jobs units plan := by
  induction h with
  | nil => exact .nil
  | @cons pending units job unit rest picked unit_mem _ ih =>
    obtain ⟨source, hsource, rfl⟩ := hj job (mem_of_pick? picked)
    have hsub : pending.eraseP (·.id == source.reset.id) ⊆ pending := List.eraseP_subset
    have hstart := Quantity.nonneg_larger (hw.ready_nonneg unit unit_mem) source.arrival
    exact .cons hsource unit_mem rfl rfl (Quantity.Same.refl hstart) rfl
      (ih (hw.advance _ _) fun j hm => hj j (hsub hm))

end Rounds

variable [LawfulQuantity T]

theorem exists_commits_allocate (heuristic : BatchHeuristic) {pool : Pool T}
    (h : pool.check = .ok ()) : ∃ run, heuristic.allocate pool = .ok run ∧ Commits pool run := by
  have hv := Pool.valid_of_check h
  have hsorted := List.mergeSort_perm pool.freshJobs (·.id ≤ ·.id)
  obtain ⟨plan, hrun, hrounds⟩ := exists_rounds heuristic hv.working
  have hprompt := hrounds.prompt hv.working
    fun _ hj => Pool.exists_of_mem_freshJobs (hsorted.subset hj)
  exact ⟨_, allocate_of_run h hrun, commits_of_prompt hprompt
    (hrounds.map_job_perm.trans ((hsorted.map _).trans (.of_eq pool.map_id_freshJobs)))⟩

theorem plansPromptly_allocate (heuristic : BatchHeuristic) {pool : Pool T}
    (h : pool.check = .ok ()) : PlansPromptly pool (heuristic.allocate pool) := by
  obtain ⟨run, hok, hcommits⟩ := heuristic.exists_commits_allocate h
  exact ⟨run, hok, hcommits.prompt, hcommits.jobs_perm⟩

end BatchHeuristic
end JobAllocation
