import JobAllocation.Pool
import Mathlib.Tactic.Common

/-!
# Pools that pass the check

The check passes exactly the pools without a fault, and a pool without a fault has units, distinct
numbers, positive speeds and amounts of work, and times from zero on.
-/
namespace JobAllocation

variable {T : Type} [Quantity T]

structure ExecutionUnit.Valid (unit : ExecutionUnit T) : Prop where
  speed_finite : Quantity.isFinite unit.speed = true
  speed_pos : 0 < unit.speed
  ready_finite : Quantity.isFinite unit.ready = true
  ready_nonneg : 0 ≤ unit.ready

structure Job.Valid (job : Job T) : Prop where
  length_pos : 0 < job.length
  remaining_le : job.remaining ≤ job.length
  arrival_finite : Quantity.isFinite job.arrival = true
  arrival_nonneg : 0 ≤ job.arrival
  deadline_pos : ∀ deadline ∈ job.deadline, Quantity.isFinite deadline = true ∧ 0 < deadline

structure Pool.Valid (pool : Pool T) : Prop where
  units_ne_nil : pool.units ≠ []
  units_distinct : (pool.units.map (·.id)).Nodup
  units_valid : ∀ unit ∈ pool.units, unit.Valid
  jobs_distinct : (pool.jobs.map (·.id)).Nodup
  jobs_valid : ∀ job ∈ pool.jobs, job.Valid

theorem required_eq_nil_iff {α : Type} {p : Prop} [Decidable p] {fault : α} :
    (if p then [] else [fault]) = [] ↔ p := by
  split <;> simp_all

theorem forbidden_eq_nil_iff {α : Type} {p : Prop} [Decidable p] {fault : α} :
    (if p then [fault] else []) = [] ↔ ¬ p := by
  split <;> simp_all

theorem mem_required_iff {α : Type} {p : Prop} [Decidable p] {fault e : α} :
    e ∈ (if p then [] else [fault]) ↔ ¬ p ∧ e = fault := by
  split <;> simp_all

theorem mem_forbidden_iff {α : Type} {p : Prop} [Decidable p] {fault e : α} :
    e ∈ (if p then [fault] else []) ↔ p ∧ e = fault := by
  split <;> simp_all

theorem ExecutionUnit.faults_eq_nil_iff (unit : ExecutionUnit T) :
    unit.faults = [] ↔ unit.Valid := by
  unfold ExecutionUnit.faults
  rw [List.append_eq_nil_iff, required_eq_nil_iff, required_eq_nil_iff]
  exact ⟨fun ⟨⟨hsf, hsp⟩, hrf, hrn⟩ => ⟨hsf, hsp, hrf, hrn⟩,
    fun h => ⟨⟨h.speed_finite, h.speed_pos⟩, h.ready_finite, h.ready_nonneg⟩⟩

theorem Job.faults_eq_nil_iff (job : Job T) : job.faults = [] ↔ job.Valid := by
  unfold Job.faults
  rw [List.append_eq_nil_iff, List.append_eq_nil_iff, List.append_eq_nil_iff,
    forbidden_eq_nil_iff, forbidden_eq_nil_iff, required_eq_nil_iff]
  constructor
  · rintro ⟨⟨⟨hl, hr⟩, haf, han⟩, hd⟩
    refine ⟨by omega, by omega, haf, han, ?_⟩
    intro deadline hm
    rw [Option.mem_def.mp hm] at hd
    exact required_eq_nil_iff.mp hd
  · intro h
    have hl := h.length_pos
    have hr := h.remaining_le
    refine ⟨⟨⟨by omega, by omega⟩, h.arrival_finite, h.arrival_nonneg⟩, ?_⟩
    cases hd : job.deadline with
    | none => rfl
    | some deadline => exact required_eq_nil_iff.mpr (h.deadline_pos deadline hd)

theorem unitViolations_eq_nil_iff (seen : List UnitId) (units : List (ExecutionUnit T)) :
    unitViolations seen units = [] ↔
      (units.map (·.id)).Nodup ∧ (∀ unit ∈ units, unit.id ∉ seen) ∧ ∀ unit ∈ units, unit.Valid := by
  induction units generalizing seen with
  | nil => simp [unitViolations]
  | cons unit rest ih =>
    simp only [unitViolations, List.append_eq_nil_iff, ih, ExecutionUnit.faults_eq_nil_iff,
      List.map_cons, List.nodup_cons, List.mem_map, List.mem_cons]
    grind

theorem jobViolations_eq_nil_iff (seen : List JobId) (jobs : List (Job T)) :
    jobViolations seen jobs = [] ↔
      (jobs.map (·.id)).Nodup ∧ (∀ job ∈ jobs, job.id ∉ seen) ∧ ∀ job ∈ jobs, job.Valid := by
  induction jobs generalizing seen with
  | nil => simp [jobViolations]
  | cons job rest ih =>
    simp only [jobViolations, List.append_eq_nil_iff, ih, Job.faults_eq_nil_iff,
      List.map_cons, List.nodup_cons, List.mem_map, List.mem_cons]
    grind

namespace Pool

theorem violations_eq_nil_iff (pool : Pool T) :
    violations pool.jobs pool.units = [] ↔ pool.Valid := by
  unfold violations
  rw [List.append_eq_nil_iff, List.append_eq_nil_iff, unitViolations_eq_nil_iff,
    jobViolations_eq_nil_iff]
  simp only [ite_eq_right_iff, List.cons_ne_nil, imp_false, List.isEmpty_iff, List.not_mem_nil,
    not_false_eq_true, implies_true, true_and]
  exact ⟨fun ⟨⟨hne, hu, huv⟩, hj, hjv⟩ => ⟨hne, hu, huv, hj, hjv⟩,
    fun h => ⟨⟨h.units_ne_nil, h.units_distinct, h.units_valid⟩, h.jobs_distinct, h.jobs_valid⟩⟩

theorem check_eq_ok_iff (pool : Pool T) :
    pool.check = .ok () ↔ violations pool.jobs pool.units = [] := by
  unfold check validate
  cases violations pool.jobs pool.units <;> simp

theorem valid_of_check {pool : Pool T} (h : pool.check = .ok ()) : pool.Valid :=
  pool.violations_eq_nil_iff.mp (pool.check_eq_ok_iff.mp h)

theorem Valid.speed_pos {pool : Pool T} (h : pool.Valid) : ∀ unit ∈ pool.units, 0 < unit.speed :=
  fun unit hu => (h.units_valid unit hu).speed_pos

omit [Quantity T] in
theorem exists_of_mem_freshJobs {pool : Pool T} {job : Job T} (h : job ∈ pool.freshJobs) :
    ∃ source ∈ pool.jobs, source.reset = job := List.mem_map.mp h

omit [Quantity T] in
theorem map_id_freshJobs (pool : Pool T) :
    pool.freshJobs.map (·.id) = pool.jobs.map (·.id) := by
  rw [freshJobs, List.map_map]
  rfl

theorem Valid.fresh_arrival_nonneg {pool : Pool T} (h : pool.Valid) :
    ∀ job ∈ pool.freshJobs, 0 ≤ job.arrival := by
  intro job hj
  obtain ⟨source, hs, rfl⟩ := exists_of_mem_freshJobs hj
  exact (h.jobs_valid source hs).arrival_nonneg

end Pool
end JobAllocation
