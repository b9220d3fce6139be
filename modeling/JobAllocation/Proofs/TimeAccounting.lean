import JobAllocation.Proofs.BusyTimes
import JobAllocation.Proofs.RoundRobinOverlap

/-!
# Where the time goes

The metrics account for the time of a run by jobs and the schedule accounts for it by units, and the
two accounts balance. A job that is not preempted runs from its start to its finish, so waiting and
execution make up its turnaround. Slices of one job that follow one another end by the makespan, and
so does every completion, which makes the busy time of each unit a share of the makespan.
-/
namespace JobAllocation

/-- Waiting, which is not negative, and execution make up the turnaround. -/
structure JobMetrics.Adds (job : JobMetrics Exact) : Prop where
  waiting_eq : job.waiting = .rational job.waiting.value
  execution_eq : job.execution = .rational job.execution.value
  turnaround_eq : job.turnaround = .rational (job.waiting.value + job.execution.value)
  nonneg : 0 ≤ job.waiting.value

namespace Metrics

/-- Waiting and execution make up the turnaround, of each job and on average. -/
structure Additive (metrics : Metrics Exact) : Prop where
  turnaround_eq : ∀ job ∈ metrics.jobs, job.turnaround = job.waiting + job.execution
  waiting_nonneg : ∀ job ∈ metrics.jobs, 0 ≤ job.waiting
  average_eq : metrics.avgTurnaround = metrics.avgWaiting + metrics.avgExecution

/-- Each unit that is booked has a share of the makespan, and no other unit has one. -/
structure Shares (metrics : Metrics Exact) (bookings : List (Booking Exact)) : Prop where
  units_distinct : (metrics.utilizationByUnit.map (·.1)).Nodup
  mem_units_iff : ∀ unit, unit ∈ metrics.utilizationByUnit.map (·.1) ↔
    ∃ b ∈ bookings, b.unit = unit
  share : ∀ entry ∈ metrics.utilizationByUnit, entry.2.IsShare
  average : metrics.avgUtilization.IsShare

variable {schedule : Schedule Exact} {runs : List (Completion Exact × Job Exact)}

theorem totalExecution_summarize {T : Type} [Quantity T] {schedule : Schedule T}
    {runs : List (Completion T × Job T)} (hruns : runs.map (·.1) = schedule.completions) :
    (summarize schedule runs).totalExecution =
      Quantity.total (schedule.completions.map fun c =>
        (schedule.executionTime? c.job).getD c.span) := by
  rw [← hruns, List.map_map]
  simp only [summarize, List.map_map]
  rfl

/-- Averages add up if the terms do. -/
theorem additive_summarize (hterms : ∀ job ∈ (summarize schedule runs).jobs, job.Adds) :
    (summarize schedule runs).Additive where
  turnaround_eq job hj := by
    have h := hterms job hj
    rw [h.waiting_eq, h.execution_eq, h.turnaround_eq]
    rfl
  waiting_nonneg job hj := by
    have h := hterms job hj
    rw [h.waiting_eq]
    exact Exact.zero_le_rational_iff.mpr h.nonneg
  average_eq := by
    change Quantity.total ((summarize schedule runs).jobs.map (·.turnaround)) / _ =
      Quantity.total ((summarize schedule runs).jobs.map (·.waiting)) / _ +
        Quantity.total ((summarize schedule runs).jobs.map (·.execution)) / _
    rw [Exact.total_map_eq fun job hj => (hterms job hj).turnaround_eq,
      Exact.total_map_eq fun job hj => (hterms job hj).waiting_eq,
      Exact.total_map_eq fun job hj => (hterms job hj).execution_eq, List.sum_map_add]
    exact congrArg Exact.rational (add_div _ _ _)

/-- If the bookings of each unit follow one another until the makespan, the busy time of each unit
is a share of it. -/
theorem shares_summarize {bookings : List (Booking Exact)} (hkeeps : schedule.Keeps bookings)
    (hne : bookings ≠ [])
    (hp : bookings.Pairwise fun a b => a.unit = b.unit → a.finish ≤ b.start) {makespan : Rat}
    (hmakespan : schedule.makespan = .rational makespan)
    (hm : ∀ b ∈ bookings, b.finish ≤ .rational makespan) :
    (summarize schedule runs).Shares bookings := by
  have hutilizations := hkeeps.utilizations_eq hm hne hmakespan
  have hshare : ∀ unit ∈ schedule.unitsUsed,
      0 < (schedule.busyTime unit).value / makespan ∧
        (schedule.busyTime unit).value / makespan ≤ 1 := by
    intro unit hu
    have hpos := hkeeps.makespan_pos hm hne
    obtain ⟨h0, hle⟩ := hkeeps.busyTime_bounds hm hp hu
    exact ⟨div_pos h0 hpos, (div_le_one hpos).mpr hle⟩
  have hunits : schedule.utilizations.map (·.1) = schedule.unitsUsed := by
    rw [hutilizations, List.map_map]
    exact List.map_id _
  constructor
  · exact hunits ▸ schedule.nodup_unitsUsed
  · intro unit
    exact hunits ▸ hkeeps.mem_unitsUsed_iff unit
  · intro entry he
    change entry ∈ schedule.utilizations at he
    rw [hutilizations] at he
    obtain ⟨unit, hu, rfl⟩ := List.mem_map.mp he
    exact Exact.isShare_rational_iff.mpr (hshare unit hu)
  · have hmean : (summarize schedule runs).avgUtilization = mean ((schedule.unitsUsed.map
        fun unit => (schedule.busyTime unit).value / makespan).map .rational) := by
      change mean (schedule.utilizations.map (·.2)) = _
      rw [hutilizations, List.map_map, List.map_map]
      rfl
    obtain ⟨b, hb⟩ := List.exists_mem_of_ne_nil bookings hne
    have hused := (hkeeps.mem_unitsUsed_iff b.unit).mpr ⟨b, hb, rfl⟩
    rw [hmean]
    exact Exact.isShare_mean (List.ne_nil_of_mem (List.mem_map_of_mem hused))
      (List.forall_mem_map.mpr hshare)

end Metrics

theorem Schedule.makespan_eq {schedule : Schedule Exact}
    (h : ∀ c ∈ schedule.completions, c.finish = .rational c.finish.value) :
    schedule.makespan = .rational schedule.makespan.value := by
  rcases List.mem_cons.mp (Quantity.foldl_larger_mem (schedule.completions.map (·.finish))
    LawfulQuantity.zero_le_zero).2 with hzero | hmem
  · rw [makespan, Quantity.largest, hzero]
    rfl
  · obtain ⟨c, hc, hfinish⟩ := List.mem_map.mp hmem
    rw [makespan, Quantity.largest, ← hfinish]
    exact h c hc

theorem Schedule.completionOf?_of_mem {T : Type} (schedule : Schedule T)
    (hd : (schedule.completions.map (·.job)).Nodup) {c : Completion T}
    (hc : c ∈ schedule.completions) : schedule.completionOf? c.job = some c := by
  rw [completionOf?, ← schedule.completions.reverse_reverse, ← List.findRev?_eq_find?_reverse]
  refine findRev?_eq_of_mem ?_ (List.mem_reverse.mpr hc)
  rw [List.map_reverse]
  exact List.nodup_reverse.mpr hd

namespace Commits

variable {pool : Pool Exact} {run : Allocation Exact}

/-- Every completion takes time on its unit, and starts once its job has arrived. -/
theorem timed (h : Commits pool run) (hv : pool.Valid) :
    ∀ c ∈ run.schedule.completions, c.booking.Timed ∧ ∃ job ∈ pool.jobs, c.job = job.id ∧
      job.arrival = .rational job.arrival.value ∧ job.arrival.value ≤ c.start.value := by
  intro c hc
  obtain ⟨job, hj, unit, hu, hhonest⟩ := h.honest hv |>.completions_honest c hc
  have hunit := hv.units_valid unit hu
  have hjob := hv.jobs_valid job hj
  obtain ⟨start, hstart⟩ := h.prompt.starts_rational hv.working
    (fun unit hu => ⟨_, Exact.eq_rational_of_isFinite (hv.units_valid unit hu).ready_finite⟩)
    (fun job hj => ⟨_, Exact.eq_rational_of_isFinite (hv.jobs_valid job hj).arrival_finite⟩) c hc
  have hfinish : c.finish = c.start + Quantity.ofNat job.length / unit.speed := by
    have hestimate := hhonest.finish_eq
    rw [completionTime, executionTime_eq hunit.speed_pos] at hestimate
    exact (Except.ok.inj hestimate).symm
  have harrival := Exact.eq_rational_of_isFinite hjob.arrival_finite
  have h0 := hjob.arrival_nonneg
  have harrived := hhonest.arrived
  rw [harrival] at h0
  rw [harrival, hstart] at harrived
  have hle := Exact.rational_le_iff.mp harrived
  have hnonneg := (Exact.zero_le_rational_iff.mp h0).trans hle
  refine ⟨Booking.timed_of_work hstart hnonneg hjob.length_pos hunit hfinish,
    job, hj, hhonest.job_eq, harrival, ?_⟩
  rw [hstart]
  exact hle

theorem isPreemptive_eq {T : Type} [Quantity T] {pool : Pool T} {run : Allocation T}
    (h : Commits pool run) : run.schedule.isPreemptive = false := by
  rw [h.schedule_eq]
  rfl

theorem keeps (h : Commits pool run) (hv : pool.Valid) :
    run.schedule.Keeps (run.schedule.completions.map Completion.booking) where
  occupied_eq := by
    rw [Schedule.occupied, h.isPreemptive_eq, List.map_map]
    rfl
  timed := List.forall_mem_map.mpr fun c hc => (h.timed hv c hc).1

/-- A job runs from the start of its completion to the finish. -/
theorem executionTime?_eq {T : Type} [Quantity T] {pool : Pool T} {run : Allocation T}
    (h : Commits pool run) (hv : pool.Valid) {c : Completion T}
    (hc : c ∈ run.schedule.completions) : run.schedule.executionTime? c.job = some c.span := by
  have hfind := run.schedule.completionOf?_of_mem
    (h.jobs_perm.nodup_iff.mpr hv.jobs_distinct) hc
  rw [Schedule.executionTime?, h.isPreemptive_eq, hfind]
  rfl

theorem total_execution (h : Commits pool run) (hv : pool.Valid) :
    Quantity.total (run.schedule.completions.map fun c =>
        (run.schedule.executionTime? c.job).getD c.span) =
      .rational ((run.schedule.completions.map Completion.booking).map Booking.length).sum := by
  rw [List.map_map]
  refine Exact.total_map_eq fun c hc => ?_
  rw [h.executionTime?_eq hv hc]
  exact (h.timed hv c hc).1.duration_eq

theorem finish_le_makespan (h : Commits pool run) (hv : pool.Valid) :
    ∀ b ∈ run.schedule.completions.map Completion.booking, b.finish ≤ run.schedule.makespan := by
  have hnonneg : ∀ x ∈ run.schedule.completions.map (·.finish), 0 ≤ x := by
    refine List.forall_mem_map.mpr fun c hc => ?_
    have htimed := (h.timed hv c hc).1
    have hfinish : c.finish = .rational c.finish.value := htimed.finish_eq
    rw [hfinish]
    exact Exact.zero_le_rational_iff.mpr htimed.finish_pos.le
  exact List.forall_mem_map.mpr fun c hc => Quantity.le_largest hnonneg (List.mem_map_of_mem hc)

/-- A completion waits from the arrival of its job and runs from its start. -/
theorem adds (h : Commits pool run) (hv : pool.Valid) {c : Completion Exact} {job : Job Exact}
    (hc : c ∈ run.schedule.completions) (hj : job ∈ run.pool.jobs) (hid : job.id = c.job) :
    (Metrics.ofCompletion run.schedule c job).Adds := by
  obtain ⟨htimed, source, hs, hcid, harrival, hle⟩ := h.timed hv c hc
  rw [h.jobs_eq] at hj
  obtain ⟨other, ho, rfl⟩ := List.mem_map.mp hj
  obtain rfl := List.inj_on_of_nodup_map hv.jobs_distinct hs ho (hcid.symm.trans hid.symm)
  have hstart : c.start = .rational c.start.value := htimed.start_eq
  have hfinish : c.finish = .rational c.finish.value := htimed.finish_eq
  have hwaiting : (Metrics.ofCompletion run.schedule c source.markCompleted).waiting =
      .rational (c.start.value - source.arrival.value) := by
    change c.start - source.arrival = _
    rw [hstart, harrival]
    rfl
  have hexecution : (Metrics.ofCompletion run.schedule c source.markCompleted).execution =
      .rational (c.finish.value - c.start.value) := by
    rw [Metrics.ofCompletion, h.executionTime?_eq hv hc]
    exact htimed.duration_eq
  have hturnaround : (Metrics.ofCompletion run.schedule c source.markCompleted).turnaround =
      .rational (c.start.value - source.arrival.value + (c.finish.value - c.start.value)) := by
    have hsum : c.start.value - source.arrival.value + (c.finish.value - c.start.value) =
        c.finish.value - source.arrival.value := by ring
    change c.finish - source.arrival = _
    rw [hsum, hfinish, harrival]
    rfl
  refine ⟨?_, ?_, ?_, ?_⟩
  · rw [hwaiting]
    rfl
  · rw [hexecution]
    rfl
  · rw [hturnaround, hwaiting, hexecution]
    rfl
  · rw [hwaiting]
    exact sub_nonneg.mpr hle

theorem additive (h : Commits pool run) (hv : pool.Valid)
    {runs : List (Completion Exact × Job Exact)}
    (hruns : runs.map (·.1) = run.schedule.completions)
    (hfound : ∀ found ∈ runs, found.2 ∈ run.pool.jobs ∧ found.2.id = found.1.job) :
    (Metrics.summarize run.schedule runs).Additive := by
  refine Metrics.additive_summarize (List.forall_mem_map.mpr fun found hm => ?_)
  have hc : found.1 ∈ run.schedule.completions := hruns ▸ List.mem_map_of_mem hm
  exact h.adds hv hc (hfound found hm).1 (hfound found hm).2

end Commits

theorem ExecutionUnit.Valid.advanceTo {T : Type} [Quantity T] {unit : ExecutionUnit T}
    (h : unit.Valid) {time : T} (hf : Quantity.isFinite time = true) :
    (unit.advanceTo time).Valid := by
  unfold ExecutionUnit.advanceTo
  split
  · next hlt =>
    exact ⟨h.speed_finite, h.speed_pos, hf,
      Quantity.le_trans h.ready_nonneg (Quantity.le_of_lt hlt)⟩
  · exact h

namespace RoundRobin

variable {pool : Pool Exact} {slices : List (Slice Exact)}

/-- On valid units every slice that does some work takes time, and the units stay valid. -/
theorem Placed.timed (h : Placed pool slices) (hv : pool.Valid)
    (hwork : ∀ slice ∈ slices, 0 < slice.work) :
    (∀ unit ∈ unitsAfter pool.units slices, unit.Valid) ∧
      ∀ slice ∈ slices, slice.booking.Timed := by
  induction slices using List.reverseRecOn with
  | nil => exact ⟨hv.units_valid, by simp⟩
  | append_singleton slices slice ih =>
    obtain ⟨hplaced, job, unit, hg⟩ := placed_concat.mp h
    obtain ⟨hunits, htimed⟩ := ih hplaced fun s hs => hwork s (List.mem_append_left _ hs)
    have hunit := hunits unit hg.unit_mem
    have hjob := hv.jobs_valid job hg.job_mem
    have hready := Exact.eq_rational_of_isFinite hunit.ready_finite
    have harrival := Exact.eq_rational_of_isFinite hjob.arrival_finite
    have hstart : slice.start = .rational (max unit.ready.value job.arrival.value) := by
      rw [hg.start_eq, ← Exact.larger_rational, ← hready, ← harrival]
    have h0 : 0 ≤ max unit.ready.value job.arrival.value := by
      have hnonneg := (hg.start_le_finish hv).1
      rw [hstart] at hnonneg
      exact Exact.zero_le_rational_iff.mp hnonneg
    have hlast : slice.booking.Timed := Booking.timed_of_work hstart h0
      (hwork slice (List.mem_append_right _ List.mem_cons_self)) hunit hg.finish_eq
    have hfinish : slice.finish = .rational slice.finish.value := hlast.finish_eq
    constructor
    · rw [unitsAfter_concat, hfinish]
      refine List.forall_mem_map.mpr fun before hb => ?_
      split
      · exact (hunits before hb).advanceTo rfl
      · exact hunits before hb
    · refine List.forall_mem_append.mpr ⟨htimed, List.forall_mem_singleton.mpr hlast⟩

variable {quantum : Nat} {hq : 0 < quantum} {schedule : Schedule Exact}

/-- Where there is a job, there is a slice that completes it. -/
theorem isPreemptive_eq (hs : Serving hq pool.jobs [] schedule) (hne : pool.jobs ≠ []) :
    schedule.isPreemptive = true := by
  obtain ⟨job, hj⟩ := List.exists_mem_of_ne_nil pool.jobs hne
  obtain ⟨c, hc, -⟩ := List.mem_map.mp
    (hs.completions_perm.symm.subset (List.mem_map_of_mem hj))
  obtain ⟨slice, hm, -⟩ := hs.exists_reported hc
  simp [Schedule.isPreemptive, List.ne_nil_of_mem hm]

theorem keeps (hs : Serving hq pool.jobs [] schedule) (hp : Placed pool schedule.slices)
    (hv : pool.Valid) (hne : pool.jobs ≠ []) :
    schedule.Keeps (schedule.slices.map Slice.booking) where
  occupied_eq := by
    rw [Schedule.occupied, if_pos (isPreemptive_eq hs hne), List.map_map]
    rfl
  timed := List.forall_mem_map.mpr (hp.timed hv fun slice hm => hs.work_pos hm).2

/-- The slices of a job make up its execution time. -/
theorem total_execution (hs : Serving hq pool.jobs [] schedule) (hp : Placed pool schedule.slices)
    (hv : pool.Valid) (hne : pool.jobs ≠ []) :
    Quantity.total (schedule.completions.map fun c =>
        (schedule.executionTime? c.job).getD c.span) =
      .rational ((schedule.slices.map Slice.booking).map Booking.length).sum := by
  have htimed := (hp.timed hv fun slice hm => hs.work_pos hm).2
  have hcompleted : ∀ slice ∈ schedule.slices, slice.job ∈ schedule.completions.map (·.job) :=
    fun slice hm => hs.completions_perm.symm.subset (hs.known slice hm)
  rw [List.map_map, ← sum_map_sum_filter _ _
    (hs.completions_perm.nodup_iff.mpr hv.jobs_distinct) hcompleted, List.map_map]
  refine Exact.total_map_eq fun c hc => ?_
  rw [Schedule.executionTime?, if_pos (isPreemptive_eq hs hne)]
  cases hown : schedule.slicesOf c.job with
  | nil =>
    obtain ⟨last, hm, -, hreports⟩ := hs.exists_reported hc
    have hmem : last ∈ schedule.slicesOf c.job :=
      List.mem_filter.mpr ⟨hm, beq_iff_eq.mpr hreports.job.symm⟩
    simp [hown] at hmem
  | cons first rest =>
    rw [Option.getD_some, Exact.sum_eq_total, ← hown]
    exact Exact.total_map_eq fun slice hm =>
      (htimed slice (List.mem_of_mem_filter hm)).duration_eq

end RoundRobin
namespace Call

variable {call : Call Exact} {pool : Pool Exact} {run : Allocation Exact}

/-- The account by units and the account by jobs are both made up of what the call books. -/
structure Accounts (call : Call Exact) (run : Allocation Exact) : Prop where
  keeps : run.schedule.Keeps (call.bookings run.schedule)
  total_execution : Quantity.total (run.schedule.completions.map fun c =>
      (run.schedule.executionTime? c.job).getD c.span) =
    .rational ((call.bookings run.schedule).map Booking.length).sum
  finish_eq : ∀ c ∈ run.schedule.completions, c.finish = .rational c.finish.value

theorem accounts (h : call.allocate pool = .ok run) (hne : pool.jobs ≠ []) :
    call.Accounts run := by
  obtain ⟨hcheck, hcall⟩ := check_and_feasible h
  have hv := Pool.valid_of_check hcheck
  rcases Classical.em call.Preempts with ⟨quantum, rfl⟩ | hpreempts
  · obtain ⟨_, hok, hs, hp⟩ := RoundRobin.exists_placed hcall hcheck
    obtain rfl := Except.ok.inj (h.symm.trans hok)
    have hkeeps := RoundRobin.keeps hs hp.placed hv hne
    refine ⟨hkeeps, RoundRobin.total_execution hs hp.placed hv hne, fun c hc => ?_⟩
    obtain ⟨last, hm, -, hreports⟩ := hs.exists_reported hc
    rw [hreports.finish]
    exact (hkeeps.timed _ (List.mem_map_of_mem hm)).finish_eq
  · obtain ⟨_, hok, hcommits⟩ := exists_commits hcheck hcall hpreempts
    obtain rfl := Except.ok.inj (h.symm.trans hok)
    have hbookings := bookings_of_not_preempts hpreempts run.schedule
    exact ⟨hbookings ▸ hcommits.keeps hv, hbookings ▸ hcommits.total_execution hv,
      fun c hc => (hcommits.timed hv c hc).1.finish_eq⟩

/-- Without preemption, and on one unit also with it, nothing is booked past the makespan. -/
theorem finish_le_makespan (h : call.allocate pool = .ok run)
    (hpreempts : ¬ call.Preempts ∨ pool.units.length = 1) :
    ∀ b ∈ call.bookings run.schedule, b.finish ≤ run.schedule.makespan := by
  obtain ⟨hcheck, hcall⟩ := check_and_feasible h
  have hv := Pool.valid_of_check hcheck
  rcases Classical.em call.Preempts with ⟨quantum, rfl⟩ | hnot
  · obtain ⟨_, hok, hs, hp⟩ := RoundRobin.exists_placed hcall hcheck
    obtain rfl := Except.ok.inj (h.symm.trans hok)
    have hone : pool.units.length = 1 := hpreempts.resolve_left (not_not.mpr ⟨quantum, rfl⟩)
    have hlatest := (hp.placed.sequential_of_single hv hone).endsLatest hp.placed hv
    exact List.forall_mem_map.mpr fun slice hm => RoundRobin.finish_le_makespan hs hp.placed hv
      (fun c hc => RoundRobin.finishesLast_of_endsLatest hs hp.placed hv hlatest hc) hm
  · obtain ⟨_, hok, hcommits⟩ := exists_commits hcheck hcall hnot
    obtain rfl := Except.ok.inj (h.symm.trans hok)
    rw [bookings_of_not_preempts hnot]
    exact hcommits.finish_le_makespan hv

theorem bookings_ne_nil (h : call.allocate pool = .ok run) (hne : pool.jobs ≠ []) :
    call.bookings run.schedule ≠ [] := by
  obtain ⟨hcheck, hcall⟩ := check_and_feasible h
  rcases Classical.em call.Preempts with ⟨quantum, rfl⟩ | hnot
  · obtain ⟨_, hok, hs, -⟩ := RoundRobin.exists_placed hcall hcheck
    obtain rfl := Except.ok.inj (h.symm.trans hok)
    have hpreemptive := RoundRobin.isPreemptive_eq hs hne
    simpa [bookings, Schedule.isPreemptive] using hpreemptive
  · rw [bookings_of_not_preempts hnot, Ne, List.map_eq_nil_iff]
    exact mt (finishes_of_allocate h).completions_eq_nil_iff.mp hne

theorem shares (h : call.allocate pool = .ok run) (hne : pool.jobs ≠ [])
    (hpreempts : ¬ call.Preempts ∨ pool.units.length = 1)
    (runs : List (Completion Exact × Job Exact)) :
    (Metrics.summarize run.schedule runs).Shares (call.bookings run.schedule) := by
  have haccounts := accounts h hne
  have hmakespan := Schedule.makespan_eq haccounts.finish_eq
  exact Metrics.shares_summarize haccounts.keeps (bookings_ne_nil h hne) (books h).pairwise
    hmakespan (hmakespan ▸ finish_le_makespan h hpreempts)

end Call

/-- In exact arithmetic the time of every run of some jobs is accounted for. The busy times of the
units add up to the execution times of the jobs. Without preemption, waiting and execution make up
the turnaround. Without preemption, and on one unit also with it, the units that are booked are busy
for a share of the makespan, and so they are on average. -/
theorem time_balances (call : Call Exact) (pool : Pool Exact) (valid : pool.check = .ok ())
    (feasible : call.Feasible pool) (nonempty : pool.jobs ≠ []) :
    ∃ run metrics, call.allocate pool = .ok run ∧
      Metrics.ofSchedule run.schedule run.pool.jobs = .ok metrics ∧
      (∀ policy : Policy, policy.allocator.call = call → Report.ofPolicy policy pool =
        .ok ⟨policy, run.schedule, some metrics, run.pool.units⟩) ∧
      Quantity.total (run.schedule.busyTimes.map (·.2)) = metrics.totalExecution ∧
      (¬ call.Preempts → metrics.Additive) ∧
      (¬ call.Preempts ∨ pool.units.length = 1 →
        metrics.Shares (call.bookings run.schedule)) := by
  have hv := Pool.valid_of_check valid
  obtain ⟨run, hok, hfinishes⟩ := Call.exists_allocate valid feasible
  obtain ⟨runs, hruns, hfound, hmetrics⟩ := hfinishes.exists_summarize hv nonempty
  have haccounts := Call.accounts hok nonempty
  refine ⟨run, .summarize run.schedule runs, hok, hmetrics, ?_, ?_, ?_, ?_⟩
  · rintro policy rfl
    exact Report.ofPolicy_eq ((policy.allocator.allocate_call pool).symm.trans hok) hmetrics
  · rw [haccounts.keeps.total_busyTimes, Metrics.totalExecution_summarize hruns,
      haccounts.total_execution]
  · intro hpreempts
    obtain ⟨_, hagain, hcommits⟩ := Call.exists_commits valid feasible hpreempts
    obtain rfl := Except.ok.inj (hok.symm.trans hagain)
    exact hcommits.additive hv hruns hfound
  · exact fun hpreempts => Call.shares hok nonempty hpreempts runs

/-- A job of two quanta and a short one that arrives later, for one unit. -/
def twoOnOne : Pool Exact where
  jobs := [⟨0, "long", 150, 0, none, 150⟩, ⟨1, "short", 40, .rational 1, none, 40⟩]
  units := [⟨0, "only", .rational 100, 0⟩]

/-- In turns of at most a second the unit is busy for a share of the time, and one job after the
other waits and runs for as long as it takes. -/
theorem time_balances_twoOnOne :
    twoOnOne.check = .ok () ∧ twoOnOne.jobs ≠ [] ∧ twoOnOne.units.length = 1 ∧
      (Call.roundRobin 100).Feasible twoOnOne ∧ Policy.fcfs.allocator.call.Feasible twoOnOne ∧
      (∃ run metrics, (Call.roundRobin 100).allocate twoOnOne = .ok run ∧
        Metrics.ofSchedule run.schedule run.pool.jobs = .ok metrics ∧
        metrics.Shares ((Call.roundRobin 100).bookings run.schedule)) ∧
      ∃ schedule metrics units,
        Report.ofPolicy .fcfs twoOnOne = .ok ⟨.fcfs, schedule, some metrics, units⟩ ∧
        metrics.Additive := by
  have hcheck : twoOnOne.check = .ok () := twoOnOne.check_eq_ok_iff.mpr (by decide +kernel)
  have hquantum : (Call.roundRobin 100).Feasible twoOnOne := by
    change 0 < 100
    decide
  obtain ⟨run, metrics, hok, hmetrics, -, -, -, hshares⟩ :=
    time_balances (.roundRobin 100) twoOnOne hcheck hquantum (List.cons_ne_nil _ _)
  obtain ⟨first, others, -, -, hreport, -, hadditive, -⟩ :=
    time_balances Policy.fcfs.allocator.call twoOnOne hcheck trivial (List.cons_ne_nil _ _)
  refine ⟨hcheck, List.cons_ne_nil _ _, rfl, hquantum, trivial,
    ⟨run, metrics, hok, hmetrics, hshares (.inr rfl)⟩,
    first.schedule, others, first.pool.units, hreport .fcfs rfl, hadditive ?_⟩
  rintro ⟨quantum, hquantum⟩
  cases hquantum

end JobAllocation
