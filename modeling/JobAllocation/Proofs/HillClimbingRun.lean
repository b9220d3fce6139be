import JobAllocation.HillClimbing
import JobAllocation.Proofs.InitialAssignments
import JobAllocation.Proofs.LocalOptimum

/-!
# Hill climbing makes prompt plans

An execution starts each job as soon as the clock of its unit and its arrival allow, so what it
returns is a prompt plan itself. The search only decides the assignment that is carried out, and
that is complete whenever the search began at a complete one.
-/
namespace JobAllocation

variable {T : Type} [Quantity T]

namespace Execution

variable [LawfulQuantity T]

/-- Entries that bind distinct jobs to known units are carried out to their end, as a plan on units
that are in step with the clocks. -/
theorem exists_prompt_run {jobs : List (Job T)} {original units : List (ExecutionUnit T)}
    {clocks : Clocks T} {seen : List JobId} {entries : List (JobId × UnitId)}
    (hs : InStep original clocks units) (hw : Working units) (ho : (original.map (·.id)).Nodup)
    (hj : (jobs.map (·.id)).Nodup) (ha : ∀ job ∈ jobs, 0 ≤ job.arrival)
    (hn : (entries.map (·.1)).Nodup) (hseen : ∀ entry ∈ entries, entry.1 ∉ seen)
    (hjobs : ∀ entry ∈ entries, entry.1 ∈ jobs.map (·.id))
    (hunits : ∀ entry ∈ entries, entry.2 ∈ units.map (·.id)) :
    ∃ plan, run jobs original seen clocks entries = .ok plan ∧ Prompt jobs units plan ∧
      plan.map (·.job) = entries.map (·.1) := by
  -- By the entries. The units of the plan are advanced with the clocks, so they stay in step.
  induction entries generalizing units clocks seen with
  | nil => exact ⟨[], rfl, .nil, rfl⟩
  | cons entry rest ih =>
    obtain ⟨jobId, unitId⟩ := entry
    obtain ⟨hjob, hrestJobs⟩ := List.forall_mem_cons.mp hjobs
    obtain ⟨hunit, hrestUnits⟩ := List.forall_mem_cons.mp hunits
    have hnew := hseen _ List.mem_cons_self
    have hlater := notMem_seen hn hseen
    obtain ⟨job, job_mem, rfl⟩ := List.mem_map.mp hjob
    obtain ⟨unit, unit_mem, rfl⟩ := List.mem_map.mp hunit
    obtain ⟨first, hf, hfid, hfspeed, hsame⟩ := hs unit unit_mem
    rw [List.map_cons, List.nodup_cons] at hn
    have hspeed : 0 < first.speed := hfspeed ▸ hw.speed_pos unit unit_mem
    have hready := hw.ready_nonneg unit unit_mem
    have harrival := ha job job_mem
    have hwork : 0 ≤ Quantity.ofNat job.length / first.speed :=
      LawfulQuantity.work_nonneg job.length (hfspeed ▸ hw.speed_finite unit unit_mem) hspeed
    have hclock : 0 ≤ clocks.at first := Quantity.le_trans hready hsame.2
    have hstart := hsame.larger hclock hready harrival harrival (Quantity.Same.refl harrival)
    have hstart0 := Quantity.nonneg_larger hclock job.arrival
    obtain ⟨-, -, hle⟩ := same_times hready harrival hwork hsame hstart
    have hfinish := Quantity.Same.refl (Quantity.nonneg_add hstart0 hwork)
    obtain ⟨plan, hrun, hprompt, hplan⟩ := ih (hs.advance hw unit_mem hle hfinish)
      (hw.advance _ _) hn.2 hlater hrestJobs (by rwa [map_id_advanceUnit])
    refine ⟨⟨job.id, unit.id, Quantity.larger (clocks.at first) job.arrival, _⟩ :: plan, ?_,
      .cons job_mem unit_mem rfl rfl hstart (by rw [hfspeed]) hprompt, congrArg _ hplan⟩
    have hfindUnit : findUnit? original unit.id = some first := hfid ▸ findUnit?_of_mem ho hf
    rw [run, if_neg hnew]
    simp only [findJob?_of_mem hj job_mem, hfindUnit, executionTime_eq hspeed, bind, Except.bind,
      hrun, pure, Except.pure]

/-- A complete assignment is carried out to its end, and promptly. -/
theorem exists_prompt_execute {pool : Pool T} (hv : pool.Valid) {a : Assignment}
    (ha : a.Complete pool.jobs pool.units) :
    ∃ plan, execute a pool.jobs pool.units = .ok plan ∧ Prompt pool.jobs pool.units plan ∧
      (plan.map (·.job)).Perm (pool.jobs.map (·.id)) := by
  have hassigned : pool.jobs.find? (fun job => (a.unitOf? job.id).isNone) = none := by
    rw [List.find?_eq_none]
    intro job hj
    obtain ⟨unit, -, hunit⟩ := ha.exists_unitOf? hj
    simp [hunit]
  have hn : (a.entries.map (·.1)).Nodup := ha.jobs_perm.nodup_iff.mpr hv.jobs_distinct
  obtain ⟨plan, hrun, hprompt, hplan⟩ := exists_prompt_run
    (inStep_initial hv.working) hv.working hv.units_distinct hv.jobs_distinct
    (fun job hj => (hv.jobs_valid job hj).arrival_nonneg) hn (fun _ _ => List.not_mem_nil)
    (fun entry he => ha.jobs_perm.subset (List.mem_map_of_mem he)) ha.units_known
  refine ⟨plan, ?_, hprompt, (List.Perm.of_eq hplan).trans ha.jobs_perm⟩
  rw [execute, hassigned]
  exact hrun

end Execution

namespace HillClimbing

theorem search_of_build {policy : HillClimbing} {pool : Pool T} {initial : Assignment}
    (h : pool.check = .ok ()) (hbuild : policy.initial.build pool.jobs pool.units = .ok initial) :
    policy.search pool =
      LocalSearch.optimize policy.maxRounds initial pool.jobs pool.units := by
  simp only [search, h, hbuild, bind, Except.bind]

/-- From a start that covers the pool the search ends, and at a complete assignment. -/
theorem exists_truthful_search {policy : HillClimbing} {pool : Pool T} (h : pool.check = .ok ())
    (hc : policy.initial.Covers pool.jobs pool.units) :
    ∃ initial climb, policy.initial.build pool.jobs pool.units = .ok initial ∧
      initial.Complete pool.jobs pool.units ∧ policy.search pool = .ok climb ∧
      climb.Truthful policy.maxRounds initial pool.jobs pool.units ∧
      climb.assignment.Complete pool.jobs pool.units := by
  have hv := Pool.valid_of_check h
  obtain ⟨initial, hbuild, hcomplete⟩ :=
    InitialAssignment.exists_complete_build hc hv.jobs_distinct hv.units_ne_nil hv.speed_pos
  obtain ⟨p, hp⟩ := LocalSearch.exists_poses hv.jobs_distinct hv.units_distinct hv.speed_pos
  have hi := hp.complete hcomplete
  obtain ⟨x, hx⟩ := LocalSearch.Problem.exists_describes hi
  obtain ⟨last, hassignment, hdescribes, hlast, hjobs, hreplay, hlength⟩ :=
    LocalSearch.Problem.exists_replay hp hi hx policy.maxRounds
  have hfinal := hlast.perm hp.jobs_perm hp.units_perm
  have hrun := LocalSearch.optimize_eq hp hi hx policy.maxRounds
  rw [hassignment] at hrun
  exact ⟨initial, _, hbuild, hcomplete, (search_of_build h hbuild).trans hrun,
    ⟨LocalSearch.Problem.makespan_eq hp hi hx, hreplay,
      LocalSearch.Problem.makespan_eq hp hlast hdescribes, hjobs, hfinal.units_known, hlength⟩,
    hfinal⟩

theorem exists_commits_allocate [LawfulQuantity T] {policy : HillClimbing} {pool : Pool T}
    (h : pool.check = .ok ()) (hc : policy.initial.Covers pool.jobs pool.units) :
    ∃ run, policy.allocate pool = .ok run ∧ Commits pool run := by
  have hv := Pool.valid_of_check h
  obtain ⟨-, climb, -, -, hsearch, -, hcomplete⟩ := exists_truthful_search h hc
  obtain ⟨plan, hrun, hprompt, hperm⟩ := Execution.exists_prompt_execute hv hcomplete
  refine ⟨⟨.ofCompletions plan, pool.jobs.map Job.markCompleted, unitsAfter plan pool.units⟩, ?_,
    rfl, hprompt, hperm, rfl, rfl⟩
  simp only [allocate, hsearch, hrun, bind, Except.bind, pure, Except.pure, unitsAfter]

end HillClimbing
end JobAllocation
