import JobAllocation.Proofs.EarliestDeadline
import JobAllocation.Proofs.ExactTimes
import JobAllocation.Proofs.RetimedAllocations

/-!
# Time has no origin

Without rounding, a run can be put off: if every arrival, deadline and ready time is later by the
same amount, then so is every start, finish and ready time of the run, and nothing else changes. No
policy compares a time with a duration or with a constant. The makespan does, being counted from
zero, and so do the shares of it for which the units were busy.
-/
namespace JobAllocation

namespace Exact

variable {c : Rat}

theorem later_le_iff {x y : Exact} : x + rational c ≤ y + rational c ↔ x ≤ y := by
  cases x with
  | never =>
    cases y with
    | never => exact Iff.rfl
    | rational y =>
      exact iff_of_false (not_never_le_rational _) (not_never_le_rational _)
  | rational x =>
    cases y with
    | never => exact iff_of_true (le_never _) (le_never _)
    | rational y =>
      rw [rational_le_iff]
      exact rational_le_iff.trans (add_le_add_iff_right c)

theorem later_inj {x y : Exact} : x + rational c = y + rational c ↔ x = y := by
  refine ⟨fun h => ?_, congrArg (· + rational c)⟩
  have hsame : Quantity.Same (x + rational c) (y + rational c) := h ▸ ⟨le_self _, le_self _⟩
  exact eq_of_same ⟨later_le_iff.mp hsame.1, later_le_iff.mp hsame.2⟩

theorem later_totalOrder (x y : Exact) :
    Quantity.totalOrder (x + rational c) (y + rational c) = Quantity.totalOrder x y := by
  have hlt : x + rational c < y + rational c ↔ x < y := by
    rw [Quantity.lt_iff, Quantity.lt_iff, later_le_iff, later_le_iff]
  change (if x + rational c = y + rational c then _ else
    if x + rational c < y + rational c then _ else _) = if x = y then _ else if x < y then _ else _
  simp only [later_inj, hlt]

theorem later_sub (x y : Exact) : x + rational c - (y + rational c) = x - y := by
  cases x with
  | never => rfl
  | rational x =>
    cases y with
    | never => rfl
    | rational y => exact congrArg rational (add_sub_add_right_eq_sub x y c)

theorem isFinite_later (x : Exact) :
    Quantity.isFinite (x + rational c) = Quantity.isFinite x := by
  cases x <;> rfl

theorem later_add (x d : Exact) : x + d + rational c = x + rational c + d :=
  (inferInstance : RightCommutative fun x y : Exact => x + y).right_comm x d (rational c)

theorem nonneg_later (hc : 0 ≤ c) {x : Exact} (hx : 0 ≤ x) : 0 ≤ x + rational c :=
  Quantity.nonneg_add hx (zero_le_rational_iff.mpr hc)

end Exact

def Job.delayed (c : Rat) (job : Job Exact) : Job Exact :=
  { job with
    arrival := job.arrival + .rational c
    deadline := job.deadline.map (· + .rational c) }

def ExecutionUnit.delayed (c : Rat) (unit : ExecutionUnit Exact) : ExecutionUnit Exact :=
  { unit with ready := unit.ready + .rational c }

/-- All times later by `c`. -/
def Retiming.delay (c : Rat) : Retiming Exact where
  job := Job.delayed c
  unit := ExecutionUnit.delayed c
  time t := t + .rational c
  job_id _ := rfl
  job_length _ := rfl
  job_arrival _ := rfl
  unit_id _ := rfl
  unit_speed _ := rfl
  unit_comm _ _ := rfl
  time_le _ _ := Exact.later_le_iff
  time_totalOrder := Exact.later_totalOrder
  time_add := Exact.later_add
  time_infinity := Exact.never_add _

variable {c : Rat}

theorem Job.Valid.delayed (hc : 0 ≤ c) {job : Job Exact} (h : job.Valid) :
    (job.delayed c).Valid where
  length_pos := h.length_pos
  remaining_le := h.remaining_le
  arrival_finite := (Exact.isFinite_later _).trans h.arrival_finite
  arrival_nonneg := Exact.nonneg_later hc h.arrival_nonneg
  deadline_pos := by
    intro deadline hm
    obtain ⟨due, hdue, rfl⟩ := Option.map_eq_some_iff.mp (Option.mem_def.mp hm)
    obtain ⟨hfinite, hpos⟩ := h.deadline_pos due hdue
    have hle : due ≤ due + .rational c :=
      LawfulQuantity.le_add (Quantity.le_of_lt hpos) (Exact.zero_le_rational_iff.mpr hc)
    exact ⟨(Exact.isFinite_later _).trans hfinite, Quantity.lt_of_lt_of_le hpos hle⟩

theorem ExecutionUnit.Valid.delayed (hc : 0 ≤ c) {unit : ExecutionUnit Exact} (h : unit.Valid) :
    (unit.delayed c).Valid where
  speed_finite := h.speed_finite
  speed_pos := h.speed_pos
  ready_finite := (Exact.isFinite_later _).trans h.ready_finite
  ready_nonneg := Exact.nonneg_later hc h.ready_nonneg

namespace Pool

/-- The pool with every arrival, deadline and ready time later by `c`. -/
def delayed (c : Rat) (pool : Pool Exact) : Pool Exact where
  jobs := pool.jobs.map (.delayed c)
  units := pool.units.map (.delayed c)

theorem Valid.delayed (hc : 0 ≤ c) {pool : Pool Exact} (h : pool.Valid) :
    (pool.delayed c).Valid where
  units_ne_nil := mt List.map_eq_nil_iff.mp h.units_ne_nil
  units_distinct := by
    have hids : (pool.delayed c).units.map (·.id) = pool.units.map (·.id) := List.map_map
    exact hids ▸ h.units_distinct
  units_valid := List.forall_mem_map.mpr fun unit hu => (h.units_valid unit hu).delayed hc
  jobs_distinct := by
    have hids : (pool.delayed c).jobs.map (·.id) = pool.jobs.map (·.id) := List.map_map
    exact hids ▸ h.jobs_distinct
  jobs_valid := List.forall_mem_map.mpr fun job hj => (h.jobs_valid job hj).delayed hc

/-- A pool that passes the check passes it later too. -/
theorem check_delayed (hc : 0 ≤ c) {pool : Pool Exact} (h : pool.check = .ok ()) :
    (pool.delayed c).check = .ok () := by
  rw [check_eq_ok_iff, violations_eq_nil_iff]
  exact (valid_of_check h).delayed hc

end Pool

namespace Retiming

theorem delay_keepsProgress (c : Rat) : (delay c).KeepsProgress := fun _ _ => rfl

theorem delay_keepsSpans (c : Rat) : (delay c).KeepsSpans := Exact.later_sub

theorem delay_movesDeadlines (c : Rat) : (delay c).MovesDeadlines := fun _ => rfl

end Retiming

/-- A job that is due later is as late as it was if it is done later. -/
theorem latenesses_delayed (c : Rat) (jobs : List (Job Exact))
    (completions : List (Completion Exact)) :
    latenesses (jobs.map (.delayed c)) (completions.map (Retiming.delay c).completion) =
      latenesses jobs completions := by
  rw [latenesses, List.filterMap_map, latenesses]
  refine List.filterMap_congr fun completion _ => ?_
  have hfind : findJob? (jobs.map (.delayed c)) completion.job =
      (findJob? jobs completion.job).map (.delayed c) :=
    findJob?_retime (.delay c) jobs completion.job
  rw [Function.comp_apply, Retiming.completion_job, hfind]
  cases findJob? jobs completion.job with
  | none => rfl
  | some job =>
    simp only [Option.map_some, Option.bind_some, Job.delayed, Option.map_map]
    exact congrArg (Option.map · job.deadline) (funext fun deadline => Exact.later_sub _ _)

/-- A pool that is given later by `c` is allocated and reported as it was, later by `c`. What the
report says of the waiting, turnaround and execution time of a job stays, and so does how late the
job is. -/
theorem runs_commute_with_delay (pool : Pool Exact) (c : Rat) (valid : pool.check = .ok ())
    (nonneg : 0 ≤ c) :
    (pool.delayed c).check = .ok () ∧
      (∀ allocator : Allocator,
        (allocator.call.Feasible pool → ∃ run, allocator.allocate pool = .ok run) ∧
        allocator.allocate (pool.delayed c) =
          (allocator.allocate pool).map (Retiming.delay c).allocation) ∧
      (∀ policy : Policy,
        Report.ofPolicy policy (pool.delayed c) =
          (Report.ofPolicy policy pool).map (Retiming.delay c).report) ∧
      ∀ completions,
        latenesses (pool.delayed c).jobs (completions.map (Retiming.delay c).completion) =
          latenesses pool.jobs completions := by
  have hlater : (pool.delayed c).check = .ok () := Pool.check_delayed nonneg valid
  have hprogress := Retiming.delay_keepsProgress c
  have hdeadlines := Retiming.delay_movesDeadlines c
  refine ⟨hlater, fun allocator => ⟨fun hfeasible => ?_, ?_⟩, fun policy => ?_,
    latenesses_delayed c pool.jobs⟩
  · obtain ⟨run, hrun, -⟩ := Call.exists_allocate valid hfeasible
    exact ⟨run, (allocator.allocate_call pool).symm.trans hrun⟩
  · exact allocator.allocate_retime hprogress (fun _ => hdeadlines.due_eq) valid hlater
  · exact Report.ofPolicy_retime hprogress (Retiming.delay_keepsSpans c) hdeadlines policy valid
      hlater

/-- Two jobs with deadlines for two units. -/
def twoDue : Pool Exact where
  jobs := [⟨0, "long", 300, 0, some (.rational 4), 300⟩,
    ⟨1, "short", 100, .rational 1, some (.rational 2), 100⟩]
  units := [⟨0, "slow", .rational 100, .rational (1 / 2)⟩, ⟨1, "fast", .rational 150, 0⟩]

theorem runs_commute_with_delay_twoDue :
    twoDue.check = .ok () ∧ (0 : Rat) ≤ 5 / 2 ∧
      (∃ run, Allocator.allocate (.roundRobin 100) twoDue = .ok run ∧
        Allocator.allocate (.roundRobin 100) (twoDue.delayed (5 / 2)) =
          .ok ((Retiming.delay (5 / 2)).allocation run)) ∧
      ∃ report, Report.ofPolicy .edf twoDue = .ok report ∧
        Report.ofPolicy .edf (twoDue.delayed (5 / 2)) =
          .ok ((Retiming.delay (5 / 2)).report report) := by
  have hcheck : twoDue.check = .ok () := twoDue.check_eq_ok_iff.mpr (by decide +kernel)
  have hnonneg : (0 : Rat) ≤ 5 / 2 := by decide +kernel
  obtain ⟨-, hallocators, hpolicies, -⟩ := runs_commute_with_delay twoDue (5 / 2) hcheck hnonneg
  have hquantum : (Allocator.roundRobin 100).call.Feasible twoDue := by
    change 0 < 100
    decide
  obtain ⟨hsome, hsliced⟩ := hallocators (.roundRobin 100)
  obtain ⟨run, hrun⟩ := hsome hquantum
  obtain ⟨first, hfirst⟩ := (hallocators Policy.edf.allocator).1 trivial
  obtain ⟨metrics, hreport, -⟩ := Report.exists_ofPolicy hfirst
  have hreported := hpolicies .edf
  rw [hrun] at hsliced
  rw [hreport] at hreported
  exact ⟨hcheck, hnonneg, ⟨run, hrun, hsliced⟩, _, hreport, hreported⟩

end JobAllocation
