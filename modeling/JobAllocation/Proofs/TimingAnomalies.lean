import JobAllocation.Proofs.Binary64Quotients
import JobAllocation.Proofs.UnitIndependence

/-!
# No timing anomalies

An execution only ever takes the later of two times and adds a duration to it. Both are monotone,
and so is the duration of a job in its work and in the speed of its unit. So if all jobs get longer
and arrive later, and all units get slower and are free later, no completion moves forward. Where
the assignment is made anew for the changed input this is not so: then a unit may get other jobs.
-/
namespace JobAllocation

section Easier

variable {T : Type} [Quantity T]

/-- No more work than another job, and no later arrival. -/
structure Job.Easier (job other : Job T) : Prop where
  length_le : job.length ≤ other.length
  arrival_le : job.arrival ≤ other.arrival

/-- No slower than another unit, and free no later. -/
structure ExecutionUnit.Easier (unit other : ExecutionUnit T) : Prop where
  le_speed : other.speed ≤ unit.speed
  ready_le : unit.ready ≤ other.ready

/-- Two pools with the same numbers, of which the first one is nowhere harder. -/
structure Pool.Easier (pool other : Pool T) : Prop where
  jobs_perm : (pool.jobs.map (·.id)).Perm (other.jobs.map (·.id))
  units_perm : (pool.units.map (·.id)).Perm (other.units.map (·.id))
  jobs : ∀ job ∈ pool.jobs, ∀ harder ∈ other.jobs, harder.id = job.id → job.Easier harder
  units : ∀ unit ∈ pool.units, ∀ harder ∈ other.units, harder.id = unit.id → unit.Easier harder

/-- Two completions of a job on one unit, of which the first one neither starts nor ends later. -/
structure Completion.NoLater (c later : Completion T) : Prop where
  job_eq : later.job = c.job
  unit_eq : later.unit = c.unit
  start_le : c.start ≤ later.start
  finish_le : c.finish ≤ later.finish

theorem Pool.Easier.complete {pool other : Pool T} (h : pool.Easier other) {a : Assignment}
    (ha : a.Complete pool.jobs pool.units) : a.Complete other.jobs other.units where
  jobs_perm := ha.jobs_perm.trans h.jobs_perm
  units_known entry he := h.units_perm.subset (ha.units_known entry he)

/-- The clocks of one run are nowhere ahead of those of another. -/
def Execution.Clocks.NoLater (pool other : Pool T) (clocks later : Execution.Clocks T) : Prop :=
  ∀ unit ∈ pool.units, ∀ harder ∈ other.units, harder.id = unit.id →
    0 ≤ clocks.at unit ∧ clocks.at unit ≤ later.at harder

theorem Schedule.makespan_le [LawfulQuantity T] {plan again : List (Completion T)}
    (hnonneg : ∀ c ∈ plan, 0 ≤ c.finish) (h : List.Forall₂ Completion.NoLater plan again) :
    (Schedule.ofCompletions plan).makespan ≤ (Schedule.ofCompletions again).makespan := by
  have hlater : ∀ x ∈ again.map (·.finish), 0 ≤ x := by
    intro x hx
    obtain ⟨later, hl, rfl⟩ := List.mem_map.mp hx
    obtain ⟨c, hc, hle⟩ := exists_of_mem_forall₂ h hl
    exact Quantity.le_trans (hnonneg c hc) hle.finish_le
  refine Quantity.largest_le (Quantity.nonneg_largest _) fun x hx => ?_
  obtain ⟨c, hc, rfl⟩ := List.mem_map.mp hx
  obtain ⟨later, hl, hle⟩ := exists_of_mem_forall₂ h.flip hc
  exact Quantity.le_trans hle.finish_le
    (Quantity.le_largest hlater (List.mem_map_of_mem hl))

end Easier

namespace Execution

variable {pool other : Pool Binary64}

/-- One job on one unit, from clocks that are in order. -/
theorem times_le {job harder : Job Binary64} {unit host : ExecutionUnit Binary64}
    {clock later : Binary64} (hj : job.Valid) (hu : unit.Valid) (hh : host.Valid)
    (hjob : job.Easier harder) (hunit : unit.Easier host) (hclock : 0 ≤ clock)
    (hle : clock ≤ later) :
    Quantity.larger clock job.arrival ≤ Quantity.larger later harder.arrival ∧
      Quantity.larger clock job.arrival + Quantity.ofNat job.length / unit.speed ≤
        Quantity.larger later harder.arrival + Quantity.ofNat harder.length / host.speed := by
  have hstart : Quantity.larger clock job.arrival ≤ Quantity.larger later harder.arrival :=
    Quantity.larger_le_larger hclock hj.arrival_nonneg hle hjob.arrival_le
  have hwork : Quantity.ofNat job.length / unit.speed ≤ Quantity.ofNat harder.length / host.speed :=
    Binary64.div_le_div (Binary64.nonneg_ofNat _) (Binary64.ofNat_le_ofNat hjob.length_le)
      hu.speed_finite hh.speed_pos hunit.le_speed
  exact ⟨hstart, LawfulQuantity.add_le_add (Quantity.nonneg_larger hclock _) hstart
    (LawfulQuantity.work_nonneg _ hu.speed_finite hu.speed_pos) hwork⟩

theorem forall₂_noLater_of_run (hv : pool.Valid) (hv' : other.Valid) (heasier : pool.Easier other)
    {seen : List JobId} {clocks later : Clocks Binary64} {entries : List (JobId × UnitId)}
    {plan again : List (Completion Binary64)} (hclocks : clocks.NoLater pool other later)
    (hplan : run pool.jobs pool.units seen clocks entries = .ok plan)
    (hagain : run other.jobs other.units seen later entries = .ok again) :
    (∀ c ∈ plan, 0 ≤ c.finish) ∧ List.Forall₂ Completion.NoLater plan again := by
  -- By the entries. Each puts one clock of either run forward, so the clocks stay in order.
  induction entries generalizing seen clocks later plan again with
  | nil =>
    cases hplan
    cases hagain
    exact ⟨nofun, .nil⟩
  | cons entry rest ih =>
    obtain ⟨id, unitId⟩ := entry
    obtain ⟨job, unit, time, _, hjob, hunit, htime, hrun, rfl⟩ := exists_of_run_cons hplan
    obtain ⟨harder, host, time', _, hharder, hhost, htime', hrun', rfl⟩ := exists_of_run_cons hagain
    obtain ⟨hj, rfl⟩ := mem_of_findJob? hjob
    obtain ⟨hj', hid⟩ := mem_of_findJob? hharder
    obtain ⟨hu, rfl⟩ := mem_of_findUnit? hunit
    obtain ⟨hh, huid⟩ := mem_of_findUnit? hhost
    have huv := hv.units_valid unit hu
    have hhv := hv'.units_valid host hh
    rw [executionTime_eq huv.speed_pos] at htime
    rw [executionTime_eq hhv.speed_pos] at htime'
    cases htime
    cases htime'
    obtain ⟨hclock, hle⟩ := hclocks unit hu host hh huid
    obtain ⟨hstart, hfinish⟩ := times_le (hv.jobs_valid job hj) huv hhv
      (heasier.jobs job hj harder hj' hid) (heasier.units unit hu host hh huid) hclock hle
    have hnonneg := Quantity.nonneg_add (Quantity.nonneg_larger hclock job.arrival)
      (LawfulQuantity.work_nonneg job.length huv.speed_finite huv.speed_pos)
    have hnext : Clocks.NoLater pool other
        ((unit.id, Quantity.larger (clocks.at unit) job.arrival +
          Quantity.ofNat job.length / unit.speed) :: clocks)
        ((unit.id, Quantity.larger (later.at host) harder.arrival +
          Quantity.ofNat harder.length / host.speed) :: later) := by
      intro u hu' v hv' hvid
      rw [Clocks.at_cons, Clocks.at_cons, hvid]
      by_cases hown : u.id = unit.id
      · rw [if_pos hown, if_pos hown]
        exact ⟨hnonneg, hfinish⟩
      · rw [if_neg hown, if_neg hown]
        exact hclocks u hu' v hv' hvid
    obtain ⟨hrest, hall⟩ := ih hnext hrun hrun'
    exact ⟨List.forall_mem_cons.mpr ⟨hnonneg, hrest⟩, .cons ⟨rfl, rfl, hstart, hfinish⟩ hall⟩

end Execution

/-- An assignment that is accepted for a pool is accepted for a harder one with the same numbers,
and both run each job once. On the harder one no job starts or ends earlier on its unit, and the
makespan is no shorter. -/
theorem no_timing_anomalies (pool other : Pool Binary64) (valid : pool.check = .ok ())
    (valid' : other.check = .ok ()) (easier : pool.Easier other) (a : Assignment)
    (plan : List (Completion Binary64))
    (accepted : Execution.execute a pool.jobs pool.units = .ok plan) :
    (plan.map (·.job)).Perm (pool.jobs.map (·.id)) ∧
      ∃ again, Execution.execute a other.jobs other.units = .ok again ∧
        (again.map (·.job)).Perm (other.jobs.map (·.id)) ∧
        List.Forall₂ Completion.NoLater plan again ∧
        (Schedule.ofCompletions plan).makespan ≤ (Schedule.ofCompletions again).makespan := by
  have hv := Pool.valid_of_check valid
  have hv' := Pool.valid_of_check valid'
  have ha := (Execution.acceptsExactly_execute hv a).accepted_iff.mp ⟨plan, accepted⟩
  have ha' := easier.complete ha
  obtain ⟨again, hagain⟩ := (Execution.acceptsExactly_execute hv' a).accepted_iff.mpr ha'
  have hready : Execution.Clocks.NoLater pool other [] [] := fun unit hu harder hh hid =>
    ⟨(hv.units_valid unit hu).ready_nonneg, (easier.units unit hu harder hh hid).ready_le⟩
  obtain ⟨hnonneg, hall⟩ := Execution.forall₂_noLater_of_run hv hv' easier hready
    (Execution.run_of_execute accepted) (Execution.run_of_execute hagain)
  exact ⟨Execution.map_job_of_execute accepted ▸ ha.jobs_perm, again, hagain,
    Execution.map_job_of_execute hagain ▸ ha'.jobs_perm, hall, Schedule.makespan_le hnonneg hall⟩

/-- A longer and later job on a slower and later unit. -/
theorem no_timing_anomalies_twoUnits :
    twoUnits.check = .ok () ∧ twoUnitsChanged.check = .ok () ∧ twoUnits.Easier twoUnitsChanged ∧
      ∃ plan again, Execution.execute lateBetween twoUnits.jobs twoUnits.units = .ok plan ∧
        Execution.execute lateBetween twoUnitsChanged.jobs twoUnitsChanged.units = .ok again ∧
        (plan.map (·.job)).Perm (twoUnits.jobs.map (·.id)) ∧
        (again.map (·.job)).Perm (twoUnitsChanged.jobs.map (·.id)) ∧
        List.Forall₂ Completion.NoLater plan again ∧
        (Schedule.ofCompletions plan).makespan ≤ (Schedule.ofCompletions again).makespan := by
  have hcheck : twoUnits.check = .ok () := twoUnits.check_eq_ok_iff.mpr (by decide +kernel)
  have hcheck' : twoUnitsChanged.check = .ok () :=
    twoUnitsChanged.check_eq_ok_iff.mpr (by decide +kernel)
  have hlighter : ∀ job ∈ twoUnits.jobs, ∀ harder ∈ twoUnitsChanged.jobs, harder.id = job.id →
      job.length ≤ harder.length ∧ job.arrival ≤ harder.arrival := by decide +kernel
  have hfaster : ∀ unit ∈ twoUnits.units, ∀ harder ∈ twoUnitsChanged.units, harder.id = unit.id →
      harder.speed ≤ unit.speed ∧ unit.ready ≤ harder.ready := by decide +kernel
  have heasier : twoUnits.Easier twoUnitsChanged :=
    ⟨.refl _, .refl _,
      fun job hj harder hh hid => have h := hlighter job hj harder hh hid; ⟨h.1, h.2⟩,
      fun unit hu harder hh hid => have h := hfaster unit hu harder hh hid; ⟨h.1, h.2⟩⟩
  have hcomplete : lateBetween.Complete twoUnits.jobs twoUnits.units := ⟨by decide, by decide⟩
  obtain ⟨plan, hplan, -⟩ :=
    Execution.exists_prompt_execute (Pool.valid_of_check hcheck) hcomplete
  obtain ⟨hjobs, again, hagain, hjobs', hall, hmakespan⟩ :=
    no_timing_anomalies twoUnits twoUnitsChanged hcheck hcheck' heasier lateBetween plan hplan
  exact ⟨hcheck, hcheck', heasier, plan, again, hplan, hagain, hjobs, hjobs', hall,
    hmakespan⟩

end JobAllocation
