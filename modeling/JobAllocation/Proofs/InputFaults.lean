import JobAllocation.Binary64.Basic
import JobAllocation.Proofs.RepeatedNumbers
import JobAllocation.Proofs.ValidPool

/-!
# Every fault of the input

Validation looks at each unit and at each job by itself, and besides at which numbers have been used
before. So its report has one error for each condition that a unit or a job breaks, one for each use
of a number after the first, and one if there are no units. No fault hides another, and the order in
which units and jobs are listed only orders the report.
-/
namespace JobAllocation

variable {T : Type} [Quantity T]

/-- The errors that are due for a unit by itself, whatever its values are. -/
inductive ExecutionUnit.Breaks (unit : ExecutionUnit T) : AllocationError T → Prop where
  | speed (h : ¬ (Quantity.isFinite unit.speed = true ∧ 0 < unit.speed)) :
      Breaks unit (.speedNotPositive unit.id unit.speed)
  | ready (h : ¬ (Quantity.isFinite unit.ready = true ∧ 0 ≤ unit.ready)) :
      Breaks unit (.readyNegative unit.id unit.ready)

/-- The errors that are due for a job by itself, whatever its values are. -/
inductive Job.Breaks (job : Job T) : AllocationError T → Prop where
  | length (h : ¬ 0 < job.length) : Breaks job (.lengthNotPositive job.id)
  | remaining (h : ¬ job.remaining ≤ job.length) :
      Breaks job (.remainingExceedsLength job.id job.remaining job.length)
  | arrival (h : ¬ (Quantity.isFinite job.arrival = true ∧ 0 ≤ job.arrival)) :
      Breaks job (.arrivalNegative job.id job.arrival)
  | deadline (deadline : T) (hd : job.deadline = some deadline)
      (h : ¬ (Quantity.isFinite deadline = true ∧ 0 < deadline)) :
      Breaks job (.deadlineNotPositive job.id deadline)

theorem ExecutionUnit.mem_faults_iff {unit : ExecutionUnit T} {e : AllocationError T} :
    e ∈ unit.faults ↔ unit.Breaks e := by
  rw [faults, List.mem_append, mem_required_iff, mem_required_iff]
  constructor
  · rintro (⟨h, rfl⟩ | ⟨h, rfl⟩)
    · exact .speed h
    · exact .ready h
  · rintro (h | h)
    · exact .inl ⟨h, rfl⟩
    · exact .inr ⟨h, rfl⟩

theorem Job.mem_faults_iff {job : Job T} {e : AllocationError T} :
    e ∈ job.faults ↔ job.Breaks e := by
  rw [faults, List.mem_append, List.mem_append, List.mem_append, mem_forbidden_iff,
    mem_forbidden_iff, mem_required_iff]
  constructor
  · rintro (((⟨h, rfl⟩ | ⟨h, rfl⟩) | ⟨h, rfl⟩) | h)
    · exact .length (by omega)
    · exact .remaining (by omega)
    · exact .arrival h
    · cases hd : job.deadline with
      | none => simp [hd] at h
      | some deadline =>
        rw [hd] at h
        obtain ⟨hbad, rfl⟩ := mem_required_iff.mp h
        exact .deadline deadline hd hbad
  · rintro (h | h | h | ⟨deadline, hd, h⟩)
    · exact .inl (.inl (.inl ⟨by omega, rfl⟩))
    · exact .inl (.inl (.inr ⟨by omega, rfl⟩))
    · exact .inl (.inr ⟨h, rfl⟩)
    · rw [hd]
      exact .inr (mem_required_iff.mpr ⟨h, rfl⟩)

theorem ExecutionUnit.nodup_faults (unit : ExecutionUnit T) : unit.faults.Nodup := by
  unfold faults
  split <;> split <;> simp

theorem Job.nodup_faults (job : Job T) : job.faults.Nodup := by
  unfold faults
  cases job.deadline with
  | none => split <;> split <;> split <;> simp
  | some deadline =>
    dsimp only
    split <;> split <;> split <;> split <;> simp

namespace AllocationError

/-- Is about one unit or one job, and not about how many there are of a number. -/
def isOwn : AllocationError T → Bool
  | noUnits | duplicateUnit _ | duplicateJob _ => false
  | _ => true

end AllocationError

theorem ExecutionUnit.Breaks.isOwn {unit : ExecutionUnit T} {e : AllocationError T}
    (h : unit.Breaks e) : e.isOwn = true := by
  cases h <;> rfl

theorem Job.Breaks.isOwn {job : Job T} {e : AllocationError T} (h : job.Breaks e) :
    e.isOwn = true := by
  cases h <;> rfl

theorem unitViolations_eq (seen : List UnitId) (units : List (ExecutionUnit T)) :
    unitViolations seen units = itemReport (·.id) .duplicateUnit (·.faults) seen units := by
  induction units generalizing seen with
  | nil => rfl
  | cons unit rest ih => rw [unitViolations, itemReport, ih]

theorem jobViolations_eq (seen : List JobId) (jobs : List (Job T)) :
    jobViolations seen jobs = itemReport (·.id) .duplicateJob (·.faults) seen jobs := by
  induction jobs generalizing seen with
  | nil => rfl
  | cons job rest ih => rw [jobViolations, itemReport, ih]

theorem violations_eq (jobs : List (Job T)) (units : List (ExecutionUnit T)) :
    violations jobs units = (if units.isEmpty then [.noUnits] else []) ++
      itemReport (·.id) .duplicateUnit (·.faults) [] units ++
      itemReport (·.id) .duplicateJob (·.faults) [] jobs := by
  rw [violations, unitViolations_eq, jobViolations_eq]

section Counting

variable [DecidableEq T]

instance (unit : ExecutionUnit T) (e : AllocationError T) : Decidable (unit.Breaks e) :=
  decidable_of_iff _ unit.mem_faults_iff

instance (job : Job T) (e : AllocationError T) : Decidable (job.Breaks e) :=
  decidable_of_iff _ job.mem_faults_iff

theorem countP_unit_breaks {e : AllocationError T} (he : e.isOwn = false)
    (units : List (ExecutionUnit T)) : units.countP (·.Breaks e) = 0 := by
  rw [List.countP_eq_zero]
  intro unit _ h
  rw [(of_decide_eq_true h).isOwn] at he
  cases he

theorem countP_job_breaks {e : AllocationError T} (he : e.isOwn = false) (jobs : List (Job T)) :
    jobs.countP (·.Breaks e) = 0 := by
  rw [List.countP_eq_zero]
  intro job _ h
  rw [(of_decide_eq_true h).isOwn] at he
  cases he

theorem count_unitReport {e : AllocationError T} (he : ∀ id, .duplicateUnit id ≠ e)
    (units : List (ExecutionUnit T)) :
    (itemReport (·.id) .duplicateUnit (·.faults) [] units).count e =
      units.countP (·.Breaks e) := by
  rw [count_itemReport he fun unit _ => unit.nodup_faults]
  simp only [ExecutionUnit.mem_faults_iff]

theorem count_jobReport {e : AllocationError T} (he : ∀ id, .duplicateJob id ≠ e)
    (jobs : List (Job T)) :
    (itemReport (·.id) .duplicateJob (·.faults) [] jobs).count e = jobs.countP (·.Breaks e) := by
  rw [count_itemReport he fun job _ => job.nodup_faults]
  simp only [Job.mem_faults_iff]

/-- Has one error if there are no units, one for each use of a number after the first and one for
each condition that a unit or a job breaks by itself, and no other. -/
structure Pool.Faults (pool : Pool T) (report : List (AllocationError T)) : Prop where
  no_units : report.count .noUnits = if pool.units.isEmpty then 1 else 0
  repeated_units : ∀ id, report.count (.duplicateUnit id) = (pool.units.map (·.id)).count id - 1
  repeated_jobs : ∀ id, report.count (.duplicateJob id) = (pool.jobs.map (·.id)).count id - 1
  own : ∀ e, e.isOwn = true →
    report.count e = pool.units.countP (·.Breaks e) + pool.jobs.countP (·.Breaks e)

theorem faults_violations (pool : Pool T) : pool.Faults (violations pool.jobs pool.units) where
  no_units := by
    rw [violations_eq, List.count_append, List.count_append, count_unitReport (by simp),
      count_jobReport (by simp), countP_unit_breaks rfl, countP_job_breaks rfl]
    split <;> simp
  repeated_units id := by
    have hown : ∀ unit ∈ pool.units, .duplicateUnit id ∉ unit.faults := fun unit _ h => by
      cases (ExecutionUnit.mem_faults_iff.mp h).isOwn
    rw [violations_eq, List.count_append, List.count_append, count_jobReport (by simp),
      countP_job_breaks rfl,
      count_repeated_itemReport (fun _ _ => AllocationError.duplicateUnit.inj) hown]
    split <;> simp
  repeated_jobs id := by
    have hown : ∀ job ∈ pool.jobs, .duplicateJob id ∉ job.faults := fun job _ h => by
      cases (Job.mem_faults_iff.mp h).isOwn
    rw [violations_eq, List.count_append, List.count_append, count_unitReport (by simp),
      countP_unit_breaks rfl,
      count_repeated_itemReport (fun _ _ => AllocationError.duplicateJob.inj) hown]
    split <;> simp
  own e he := by
    have hunits : ∀ id, AllocationError.duplicateUnit id ≠ e := by
      rintro id rfl
      cases he
    have hjobs : ∀ id, AllocationError.duplicateJob id ≠ e := by
      rintro id rfl
      cases he
    have hnone : (if pool.units.isEmpty then [AllocationError.noUnits] else []).count e = 0 := by
      refine List.count_eq_zero.mpr fun h => ?_
      obtain ⟨-, rfl⟩ := mem_forbidden_iff.mp h
      cases he
    rw [violations_eq, List.count_append, List.count_append, count_unitReport hunits,
      count_jobReport hjobs, hnone, Nat.zero_add]

theorem violations_perm {pool other : Pool T} (hj : pool.jobs.Perm other.jobs)
    (hu : pool.units.Perm other.units) :
    (violations pool.jobs pool.units).Perm (violations other.jobs other.units) := by
  rw [violations_eq, violations_eq, hu.isEmpty_eq]
  refine (List.Perm.append_left _ ?_).append ?_
  · exact itemReport_perm (fun _ _ => AllocationError.duplicateUnit.inj)
      (fun unit _ => unit.nodup_faults)
      (fun _ _ _ h => by cases (ExecutionUnit.mem_faults_iff.mp h).isOwn) hu
  · exact itemReport_perm (fun _ _ => AllocationError.duplicateJob.inj)
      (fun job _ => job.nodup_faults)
      (fun _ _ _ h => by cases (Job.mem_faults_iff.mp h).isOwn) hj

end Counting

/-- Validation finds nothing exactly in the pools that are in order. In any other it finds each
condition that a unit or a job breaks, once for each of them, and each use of a number after the
first. The order of jobs and units only orders what it finds. -/
theorem every_fault_reported (pool : Pool Binary64) :
    (violations pool.jobs pool.units = [] ↔ pool.Valid) ∧
      pool.Faults (violations pool.jobs pool.units) ∧
      ∀ other : Pool Binary64, pool.jobs.Perm other.jobs → pool.units.Perm other.units →
        (violations pool.jobs pool.units).Perm (violations other.jobs other.units) :=
  ⟨pool.violations_eq_nil_iff, faults_violations pool, fun _ => violations_perm⟩

/-- Three units with one number, of which one has no defined speed and is free too early, and two
jobs with one number, of which one has no work but some left, never arrives and is due at zero. -/
def faulty : Pool Binary64 where
  jobs := [⟨2, "nothing", 0, Quantity.infinity, some 0, 3⟩, ⟨2, "again", 100, 0, none, 100⟩]
  units := [⟨5, "broken", .undefined false, .neg (Quantity.ofNat 1)⟩,
    ⟨5, "sound", Quantity.ofNat 1, 0⟩, ⟨5, "boundless", Quantity.infinity, 0⟩]

theorem every_fault_reported_faulty :
    let report := violations faulty.jobs faulty.units
    ¬ faulty.Valid ∧ report.count (.duplicateUnit 5) = 2 ∧ report.count (.duplicateJob 2) = 1 ∧
      report.count (.speedNotPositive 5 (.undefined false)) = 1 ∧
      report.count (.remainingExceedsLength 2 3 0) = 1 ∧
      report.count (.deadlineNotPositive 2 0) = 1 ∧
      faulty.jobs.Perm faulty.jobs.reverse ∧ faulty.units.Perm faulty.units.reverse ∧
      report.Perm (violations faulty.jobs.reverse faulty.units.reverse) := by
  intro report
  obtain ⟨hvalid, hfaults, hperm⟩ := every_fault_reported faulty
  have hj := faulty.jobs.reverse_perm.symm
  have hu := faulty.units.reverse_perm.symm
  have hnonempty : report ≠ [] := List.cons_ne_nil _ _
  exact ⟨fun h => hnonempty (hvalid.mpr h), hfaults.repeated_units 5, hfaults.repeated_jobs 2,
    (hfaults.own _ rfl).trans (by decide +kernel), (hfaults.own _ rfl).trans (by decide +kernel),
    (hfaults.own _ rfl).trans (by decide +kernel), hj, hu,
    hperm ⟨faulty.jobs.reverse, faulty.units.reverse⟩ hj hu⟩

end JobAllocation
