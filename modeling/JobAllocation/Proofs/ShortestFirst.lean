import JobAllocation.Proofs.CommitmentOrder

/-!
# Shortest job first minimises the mean flow time

Shortest job first ranks by length, and on one unit no order of the jobs is finished earlier on
average than one by length.
-/
namespace JobAllocation

namespace ListScheduling

/-- Shortest job first never takes a longer job first, if the score of a length tells how long it
is. -/
theorem length_le_of_precedes {T : Type} [Quantity T] {a b : Job T}
    (h : sjf.rules.ranking.precedes a b = true)
    (hscore : (Quantity.totalOrder (Quantity.ofNat a.length : T) (Quantity.ofNat b.length)).isLE →
      a.length ≤ b.length) : a.length ≤ b.length :=
  hscore (isLE_of_precedes h)

end ListScheduling

section OneUnit

variable {pool : Pool Exact} {unit : ExecutionUnit Exact}

/-- Shortest job first runs the jobs in turn, by ascending length. -/
theorem ListScheduling.exists_shortest_order (valid : pool.check = .ok ())
    (single : pool.units = [unit]) (arrived : ∀ job ∈ pool.jobs, job.arrival ≤ unit.ready) :
    ∃ run, ∃ order : List (Job Exact), sjf.allocate pool = .ok run ∧ order.Perm pool.jobs ∧
      (order.map (·.length)).Pairwise (· ≤ ·) ∧
      run.schedule = .ofCompletions (unit.inTurn order) ∧
      run.pool.jobs = pool.jobs.map Job.markCompleted := by
  obtain ⟨run, order, hok, horder, hsorted, hschedule, hjobs⟩ :=
    exists_ranked_order sjf.rules valid single arrived
  refine ⟨run, order, hok, horder, ?_, hschedule, hjobs⟩
  refine List.pairwise_map.mpr ((List.pairwise_map.mp hsorted).imp fun h => ?_)
  exact length_le_of_precedes h fun hle => by
    exact_mod_cast Exact.rational_le_iff.mp (Exact.isLE_totalOrder_iff.mp hle)

/-- The mean delay of jobs that the unit runs in turn, if each came at `since`. -/
def ExecutionUnit.meanDelay (unit : ExecutionUnit Exact) (since : Job Exact → Rat)
    (order : List (Job Exact)) : Exact :=
  .rational ((delays unit.speed.value since unit.ready.value order).sum / order.length)

theorem ExecutionUnit.meanDelay_noMore (hspeed : 0 < unit.speed.value)
    (since : Job Exact → Rat) {order other : List (Job Exact)}
    (hs : (order.map (·.length)).Pairwise (· ≤ ·)) (hp : order.Perm other) :
    Exact.NoMore (unit.meanDelay since order) (unit.meanDelay since other) := by
  refine ⟨_, _, rfl, rfl, ?_⟩
  rw [hp.length_eq]
  exact div_le_div_of_nonneg_right (sum_delays_le hspeed since _ hs hp) (Nat.cast_nonneg _)

theorem total_finish_inTurn (order : List (Job Exact)) :
    Quantity.total ((unit.inTurn order).map (·.finish)) =
      .rational (delays unit.speed.value (fun _ => 0) unit.ready.value order).sum := by
  rw [ExecutionUnit.inTurn, List.map_map]
  exact (congrArg Quantity.total (map_finish_backToBack ..)).trans (Exact.total_map_rational _)

/-- The averages are mean delays: since the arrival, or since the latest start without a wait. -/
theorem exists_metrics_inTurn (hv : pool.Valid) (hne : pool.jobs ≠ [])
    {mark : Job Exact → Job Exact} (hid : ∀ job, (mark job).id = job.id)
    (harrival : ∀ job, (mark job).arrival = job.arrival) {order : List (Job Exact)}
    (hp : order.Perm pool.jobs) :
    ∃ metrics, Metrics.ofCompletions (unit.inTurn order) (pool.jobs.map mark) = .ok metrics ∧
      metrics.avgTurnaround = unit.meanDelay (fun job => job.arrival.value) order ∧
      metrics.avgWaiting =
        unit.meanDelay (fun job => job.arrival.value + job.length / unit.speed.value) order :=
  Metrics.exists_backToBack hv.jobs_distinct hid harrival hp.subset
    (fun job hm =>
      Exact.eq_rational_of_isFinite (hv.jobs_valid job (hp.subset hm)).arrival_finite)
    fun hnil => hne (hnil ▸ hp).nil_eq.symm

end OneUnit

/-- On one unit that is not free before every job has arrived, no order of the jobs has a smaller
sum of finish times than shortest job first, and none has a smaller mean turnaround or waiting
time. -/
theorem sjf_minimises_flow_time (pool : Pool Exact) (unit : ExecutionUnit Exact)
    (valid : pool.check = .ok ()) (single : pool.units = [unit])
    (arrived : ∀ job ∈ pool.jobs, job.arrival ≤ unit.ready) :
    ∃ run, ListScheduling.sjf.allocate pool = .ok run ∧
      ∀ order : List (Job Exact), order.Perm pool.jobs →
        ∃ plan, Execution.execute ⟨order.map fun job => (job.id, unit.id)⟩ pool.jobs pool.units =
            .ok plan ∧
          Exact.NoMore (Quantity.total (run.schedule.completions.map (·.finish)))
            (Quantity.total (plan.map (·.finish))) ∧
          (pool.jobs ≠ [] → ∃ shortest metrics,
            Metrics.ofSchedule run.schedule run.pool.jobs = .ok shortest ∧
            Metrics.ofCompletions plan pool.jobs = .ok metrics ∧
            Exact.NoMore shortest.avgTurnaround metrics.avgTurnaround ∧
            Exact.NoMore shortest.avgWaiting metrics.avgWaiting) := by
  have hv := Pool.valid_of_check valid
  obtain ⟨run, order, hok, horder, hsorted, hschedule, hjobs⟩ :=
    ListScheduling.exists_shortest_order valid single arrived
  refine ⟨run, hok, fun listed hl => ?_⟩
  obtain ⟨other, hother, hexecute⟩ := Execution.exists_order hv single arrived hl
  have hunit : unit.Valid := hv.units_valid unit (single ▸ List.mem_singleton.mpr rfl)
  have hspeed := Exact.value_pos (Exact.eq_rational_of_isFinite hunit.speed_finite) hunit.speed_pos
  have hp := horder.trans hother.symm
  refine ⟨_, hexecute, ?_, fun hne => ?_⟩
  · rw [hschedule]
    exact ⟨_, _, total_finish_inTurn _, total_finish_inTurn _,
      sum_delays_le hspeed _ _ hsorted hp⟩
  · obtain ⟨shortest, hshortest, hturnaround, hwaiting⟩ := exists_metrics_inTurn hv hne
      (fun job => show job.markCompleted.id = job.id from rfl) (fun _ => rfl) horder
    obtain ⟨metrics, hmetrics, hturnaround', hwaiting'⟩ := exists_metrics_inTurn hv hne
      (fun job => show (id job).id = job.id from rfl) (fun _ => rfl) hother
    rw [List.map_id] at hmetrics
    rw [hschedule, hjobs]
    refine ⟨shortest, metrics, hshortest, hmetrics, ?_, ?_⟩
    · rw [hturnaround, hturnaround']
      exact unit.meanDelay_noMore hspeed _ hsorted hp
    · rw [hwaiting, hwaiting']
      exact unit.meanDelay_noMore hspeed _ hsorted hp

/-- Three jobs, of which the shortest arrives last, and a unit that is free after that. -/
def threeWaiting : Pool Exact where
  jobs := [⟨0, "long", 30, .rational 0, none, 30⟩, ⟨1, "middle", 20, .rational 1, none, 20⟩,
    ⟨2, "short", 10, .rational 2, none, 10⟩]
  units := [⟨0, "only", .rational 3, .rational 5⟩]

theorem sjf_minimises_flow_time_threeWaiting :
    threeWaiting.check = .ok () ∧
      ∃ run, ListScheduling.sjf.allocate threeWaiting = .ok run ∧
        ∃ plan, Execution.execute ⟨[(0, 0), (1, 0), (2, 0)]⟩ threeWaiting.jobs
            threeWaiting.units = .ok plan ∧
          Exact.NoMore (Quantity.total (run.schedule.completions.map (·.finish)))
            (Quantity.total (plan.map (·.finish))) ∧
          ∃ shortest metrics,
            Metrics.ofSchedule run.schedule run.pool.jobs = .ok shortest ∧
            Metrics.ofCompletions plan threeWaiting.jobs = .ok metrics ∧
            Exact.NoMore shortest.avgTurnaround metrics.avgTurnaround ∧
            Exact.NoMore shortest.avgWaiting metrics.avgWaiting := by
  have hcheck : threeWaiting.check = .ok () := threeWaiting.check_eq_ok_iff.mpr (by decide +kernel)
  obtain ⟨run, hok, hleast⟩ := sjf_minimises_flow_time threeWaiting
    ⟨0, "only", .rational 3, .rational 5⟩ hcheck rfl (by decide +kernel)
  obtain ⟨plan, hplan, htotal, hmetrics⟩ := hleast threeWaiting.jobs (.refl _)
  exact ⟨hcheck, run, hok, plan, hplan, htotal, hmetrics (by decide)⟩

end JobAllocation
