import JobAllocation.Proofs.DeadlineMetrics
import JobAllocation.Proofs.RunTimes

/-!
# Runs within the exponent range

The check of a pool looks at one value at a time. Durations are quotients and times, totals and
shares are sums and quotients of those, so they can leave the exponent range though no input does.
Which numbers of a report do is decided by a few of them: by the last ready times, and by the sums
behind the averages. If the input keeps to moderate powers of two, none does, however many jobs
there are.
-/
namespace JobAllocation

structure JobMetrics.Finite (entry : JobMetrics Binary64) : Prop where
  waiting : entry.waiting.isFinite = true
  turnaround : entry.turnaround.isFinite = true
  execution : entry.execution.isFinite = true

structure Metrics.Finite (metrics : Metrics Binary64) : Prop where
  jobs : ∀ entry ∈ metrics.jobs, entry.Finite
  avgWaiting : metrics.avgWaiting.isFinite = true
  avgTurnaround : metrics.avgTurnaround.isFinite = true
  avgExecution : metrics.avgExecution.isFinite = true
  totalExecution : metrics.totalExecution.isFinite = true
  makespan : metrics.makespan.isFinite = true
  deadlineMissRate : ∀ rate ∈ metrics.deadlineMissRate, rate.isFinite = true
  totalTardiness : metrics.totalTardiness.isFinite = true
  utilizationByUnit : ∀ entry ∈ metrics.utilizationByUnit, entry.2.isFinite = true
  avgUtilization : metrics.avgUtilization.isFinite = true

/-- The sums over jobs, units and slices from which other numbers are made. -/
structure Metrics.SumsFinite (metrics : Metrics Binary64) : Prop where
  avgTurnaround : metrics.avgTurnaround.isFinite = true
  totalExecution : metrics.totalExecution.isFinite = true
  totalTardiness : metrics.totalTardiness.isFinite = true
  avgUtilization : metrics.avgUtilization.isFinite = true

/-- The metrics of a run, if it completes any job. -/
def Allocation.metrics? {T : Type} [Quantity T] (run : Allocation T) : Option (Metrics T) :=
  (Metrics.ofSchedule run.schedule run.pool.jobs).toOption

/-- Every time of a run and every number of its metrics is finite. -/
structure Allocation.Finite (run : Allocation Binary64) : Prop where
  completions : ∀ c ∈ run.schedule.completions, c.start.isFinite = true ∧ c.finish.isFinite = true
  slices : ∀ slice ∈ run.schedule.slices, slice.start.isFinite = true ∧ slice.finish.isFinite = true
  units : ∀ unit ∈ run.pool.units, unit.ready.isFinite = true
  metrics : ∀ metrics ∈ run.metrics?, metrics.Finite

section Reported

variable {T : Type} [Quantity T] {pool : Pool T} {run : Allocation T}

theorem Allocation.mem_metrics?_iff {metrics : Metrics T} :
    metrics ∈ run.metrics? ↔ Metrics.ofSchedule run.schedule run.pool.jobs = .ok metrics := by
  unfold metrics?
  cases Metrics.ofSchedule run.schedule run.pool.jobs <;> simp [Except.toOption]

/-- Metrics of a run summarise its completions, each with its job. -/
theorem Call.Finishes.exists_runs (h : Finishes pool run) (hv : pool.Valid) {metrics : Metrics T}
    (hmetrics : metrics ∈ run.metrics?) :
    ∃ runs, runs ≠ [] ∧ runs.map (·.1) = run.schedule.completions ∧
      (∀ found ∈ runs, found.2 ∈ run.pool.jobs ∧ found.2.id = found.1.job) ∧
      .summarize run.schedule runs = metrics := by
  rw [Allocation.mem_metrics?_iff] at hmetrics
  have hne : pool.jobs ≠ [] := fun hnil => by
    rw [Metrics.ofSchedule, h.completions_eq_nil_iff.mpr hnil] at hmetrics
    cases hmetrics
  obtain ⟨runs, hruns, hfound, hsummary⟩ := h.exists_summarize hv hne
  refine ⟨runs, fun hnil => hne (h.completions_eq_nil_iff.mp ?_), hruns, hfound,
    Except.ok.inj (hsummary.symm.trans hmetrics)⟩
  rw [← hruns, hnil, List.map_nil]

/-- A policy reports the run of its call. -/
theorem Report.ofPolicy_eq_run [LawfulQuantity T] {policy : Policy}
    (h : policy.allocator.call.allocate pool = .ok run) :
    ofPolicy policy pool = .ok ⟨policy, run.schedule, run.metrics?, run.pool.units⟩ := by
  have hv := Pool.valid_of_check (Call.check_and_feasible h).1
  have hfinishes := Call.finishes_of_allocate h
  rw [policy.allocator.allocate_call] at h
  rcases eq_or_ne pool.jobs [] with hnil | hne
  · have hempty := hfinishes.completions_eq_nil_iff.mpr hnil
    simp only [ofPolicy, h, Allocation.metrics?, Metrics.ofSchedule, hempty, bind, Except.bind]
    rfl
  · obtain ⟨runs, -, -, hmetrics⟩ := hfinishes.exists_summarize hv hne
    rw [ofPolicy_eq h hmetrics, Allocation.mem_metrics?_iff.mpr hmetrics]

end Reported

structure Booking.Finite (b : Booking Binary64) : Prop where
  nonneg : 0 ≤ b.start
  forward : b.start ≤ b.finish
  finite : b.finish.isFinite = true

namespace Booking.Finite

variable {b : Booking Binary64}

theorem start_finite (h : b.Finite) : b.start.isFinite = true :=
  Binary64.isFinite_of_le h.nonneg h.forward h.finite

theorem finish_nonneg (h : b.Finite) : 0 ≤ b.finish :=
  Quantity.le_trans h.nonneg h.forward

theorem duration_nonneg (h : b.Finite) : 0 ≤ b.duration :=
  Binary64.nonneg_sub h.finite h.nonneg h.forward

theorem duration_le (h : b.Finite) : b.duration ≤ b.finish :=
  Binary64.sub_le_self h.finite h.nonneg h.forward

end Booking.Finite

/-- Bookings end by the ready times that they leave. -/
theorem Works.bookings_finite {pool : Pool Binary64} {bookings : List (Booking Binary64)}
    {later : List (ExecutionUnit Binary64)} (h : Works pool.jobs pool.units bookings later)
    (hv : pool.Valid) (hready : ∀ unit ∈ later, unit.ready.isFinite = true) :
    ∀ b ∈ bookings, b.Finite := by
  intro b hb
  have hbooks := h.books hv.working fun job hj => (hv.jobs_valid job hj).arrival_nonneg
  obtain ⟨unit, hu, -, hfree⟩ := hbooks.free b hb
  obtain ⟨hforward, after, ha, -, hle⟩ := hbooks.taken b hb
  have hnonneg := Quantity.le_trans (hv.working.ready_nonneg unit hu) hfree
  exact ⟨hnonneg, hforward, Binary64.isFinite_of_le (Quantity.le_trans hnonneg hforward) hle
    (hready after ha)⟩

/-- A completion with its job, both at finite times in order. -/
structure Metrics.Dated (found : Completion Binary64 × Job Binary64) : Prop where
  arrival_nonneg : 0 ≤ found.2.arrival
  deadline_nonneg : ∀ deadline ∈ found.2.deadline, 0 ≤ deadline
  arrived : found.2.arrival ≤ found.1.start
  forward : found.1.start ≤ found.1.finish
  finite : found.1.finish.isFinite = true

namespace Metrics

namespace Dated

variable {found : Completion Binary64 × Job Binary64}

theorem start_finite (h : Dated found) : found.1.start.isFinite = true :=
  Binary64.isFinite_of_le (Quantity.le_trans h.arrival_nonneg h.arrived) h.forward h.finite

theorem arrived_finish (h : Dated found) : found.2.arrival ≤ found.1.finish :=
  Quantity.le_trans h.arrived h.forward

theorem finish_nonneg (h : Dated found) : 0 ≤ found.1.finish :=
  Quantity.le_trans h.arrival_nonneg h.arrived_finish

theorem waiting_nonneg (h : Dated found) : 0 ≤ found.1.start - found.2.arrival :=
  Binary64.nonneg_sub h.start_finite h.arrival_nonneg h.arrived

theorem turnaround_nonneg (h : Dated found) : 0 ≤ found.1.finish - found.2.arrival :=
  Binary64.nonneg_sub h.finite h.arrival_nonneg h.arrived_finish

theorem waiting_le (h : Dated found) :
    found.1.start - found.2.arrival ≤ found.1.finish - found.2.arrival :=
  Binary64.sub_le_sub h.start_finite h.arrival_nonneg h.arrived h.forward h.finite

theorem turnaround_le (h : Dated found) : found.1.finish - found.2.arrival ≤ found.1.finish :=
  Binary64.sub_le_self h.finite h.arrival_nonneg h.arrived_finish

theorem tardiness_le (h : Dated found) : found.2.tardiness found.1.finish ≤ found.1.finish := by
  unfold Job.tardiness
  split
  · next deadline hdeadline =>
    have hnonneg := h.deadline_nonneg deadline hdeadline
    split
    · next hlt => exact Binary64.sub_le_self h.finite hnonneg (Quantity.le_of_lt hlt)
    · exact h.finish_nonneg
  · exact h.finish_nonneg

end Dated

theorem isFinite_mean_iff {xs : List Binary64} (hxs : ∀ x ∈ xs, 0 ≤ x) :
    (mean xs).isFinite = true ↔ (Quantity.sum xs).isFinite = true := by
  by_cases hnil : xs = []
  · rw [hnil, mean, if_pos List.isEmpty_nil, Quantity.sum]
  · rw [mean, if_neg (by simpa using hnil)]
    exact Binary64.isFinite_div_ofNat_iff (Quantity.nonneg_sum hxs) (List.length_pos_iff.mpr hnil)

end Metrics

/-- Time is spent in units and in jobs as it was booked, and all of it is finite. -/
structure Schedule.Spent (schedule : Schedule Binary64) (bookings : List (Booking Binary64)) :
    Prop where
  finite : ∀ b ∈ bookings, b.Finite
  occupied_eq : schedule.occupied = bookings.map fun b => (b.unit, b.duration)
  executions : ∀ c ∈ schedule.completions, ∃ own ⊆ bookings,
    (schedule.executionTime? c.job).getD c.span = Quantity.sum (own.map Booking.duration)

namespace Schedule.Spent

variable {schedule : Schedule Binary64} {bookings : List (Booking Binary64)}

theorem execution_nonneg (h : schedule.Spent bookings) {c : Completion Binary64}
    (hc : c ∈ schedule.completions) : 0 ≤ (schedule.executionTime? c.job).getD c.span := by
  obtain ⟨own, hown, heq⟩ := h.executions c hc
  rw [heq]
  exact Quantity.nonneg_sum (List.forall_mem_map.mpr fun b hb =>
    (h.finite b (hown hb)).duration_nonneg)

theorem busyTime_eq (h : schedule.Spent bookings) (unit : UnitId) :
    schedule.busyTime unit =
      Quantity.total ((bookings.filter (·.unit == unit)).map Booking.duration) := by
  rw [busyTime, h.occupied_eq, List.filter_map, List.map_map]
  rfl

theorem busyTime_nonneg (h : schedule.Spent bookings) (unit : UnitId) :
    0 ≤ schedule.busyTime unit := by
  rw [h.busyTime_eq]
  exact Quantity.nonneg_total (List.forall_mem_map.mpr fun b hb =>
    (h.finite b (List.mem_of_mem_filter hb)).duration_nonneg)

/-- Each unit has a share of a makespan that is neither zero nor infinite. -/
theorem exists_share {entry : UnitId × Binary64} (he : entry ∈ schedule.utilizations) :
    0 < schedule.makespan ∧ ∃ unit, entry.2 = schedule.busyTime unit / schedule.makespan := by
  unfold utilizations at he
  split at he
  · cases he
  · next hpos =>
    obtain ⟨busy, hbusy, rfl⟩ := List.mem_map.mp he
    obtain ⟨unit, -, rfl⟩ := List.mem_map.mp hbusy
    exact ⟨Quantity.lt_of_not_le (Quantity.nonneg_largest _) LawfulQuantity.zero_le_zero hpos,
      unit, rfl⟩

theorem share_nonneg (h : schedule.Spent bookings) (hm : schedule.makespan.isFinite = true) :
    ∀ share ∈ schedule.utilizations.map (·.2), 0 ≤ share := by
  refine List.forall_mem_map.mpr fun entry he => ?_
  obtain ⟨hpos, unit, heq⟩ := exists_share he
  rw [heq]
  exact Binary64.nonneg_div (h.busyTime_nonneg unit) hm hpos

end Schedule.Spent

namespace Metrics

variable {schedule : Schedule Binary64} {bookings : List (Booking Binary64)}
  {runs : List (Completion Binary64 × Job Binary64)}

theorem avgWaiting_summarize :
    (summarize schedule runs).avgWaiting =
      Quantity.total (runs.map fun found => found.1.start - found.2.arrival) /
        Quantity.ofNat runs.length := by
  simp only [summarize, List.map_map]
  rfl

theorem avgTurnaround_summarize :
    (summarize schedule runs).avgTurnaround =
      Quantity.total (runs.map fun found => found.1.finish - found.2.arrival) /
        Quantity.ofNat runs.length := by
  simp only [summarize, List.map_map]
  rfl

theorem shares_finite (hspent : schedule.Spent bookings)
    (hmakespan : schedule.makespan.isFinite = true)
    (hsums : (summarize schedule runs).SumsFinite) :
    ∀ entry ∈ schedule.utilizations, entry.2.isFinite = true := by
  have hnonneg := hspent.share_nonneg hmakespan
  have hsum := (isFinite_mean_iff hnonneg).mp hsums.avgUtilization
  intro entry he
  have hm : entry.2 ∈ schedule.utilizations.map (·.2) := List.mem_map_of_mem he
  exact Binary64.isFinite_of_le (hnonneg _ hm) (Binary64.le_sum hnonneg hm) hsum

section Summary

variable (hruns : runs.map (·.1) = schedule.completions) (hdated : ∀ found ∈ runs, Dated found)
  (hspent : schedule.Spent bookings)
include hruns hdated hspent

theorem entries_finite (hsums : (summarize schedule runs).SumsFinite) :
    ∀ entry ∈ (summarize schedule runs).jobs, entry.Finite := by
  have hexecutions : ∀ x ∈ schedule.completions.map fun c =>
      (schedule.executionTime? c.job).getD c.span, 0 ≤ x :=
    List.forall_mem_map.mpr fun c hc => hspent.execution_nonneg hc
  have htotal := hsums.totalExecution
  rw [totalExecution_summarize hruns] at htotal
  refine List.forall_mem_map.mpr fun found hf => ?_
  have h := hdated found hf
  have hc : found.1 ∈ schedule.completions := hruns ▸ List.mem_map_of_mem hf
  exact ⟨Binary64.isFinite_sub h.start_finite h.arrival_nonneg h.arrived,
    Binary64.isFinite_sub h.finite h.arrival_nonneg h.arrived_finish,
    Binary64.isFinite_of_le (hspent.execution_nonneg hc)
      (Binary64.le_total hexecutions (List.mem_map_of_mem hc)) htotal⟩

/-- Besides the times themselves, the sums decide. -/
theorem finite_summarize (hne : runs ≠ []) (hmakespan : schedule.makespan.isFinite = true)
    (hrate : ∀ rate ∈ (summarize schedule runs).deadlineMissRate, rate.isFinite = true)
    (hsums : (summarize schedule runs).SumsFinite) : (summarize schedule runs).Finite := by
  have hcount : 0 < runs.length := List.length_pos_iff.mpr hne
  have hturnarounds : ∀ x ∈ runs.map fun found => found.1.finish - found.2.arrival, 0 ≤ x :=
    List.forall_mem_map.mpr fun found hf => (hdated found hf).turnaround_nonneg
  have hwaitings : ∀ x ∈ runs.map fun found => found.1.start - found.2.arrival, 0 ≤ x :=
    List.forall_mem_map.mpr fun found hf => (hdated found hf).waiting_nonneg
  have hexecution : 0 ≤ (summarize schedule runs).totalExecution := by
    rw [totalExecution_summarize hruns]
    exact Quantity.nonneg_total
      (List.forall_mem_map.mpr fun c hc => hspent.execution_nonneg hc)
  have hwaiting : (Quantity.total (runs.map fun found : Completion Binary64 × Job Binary64 =>
      found.1.start - found.2.arrival)).isFinite = true := by
    have hturnaround := hsums.avgTurnaround
    rw [avgTurnaround_summarize] at hturnaround
    refine Binary64.isFinite_of_le (Quantity.nonneg_total hwaitings)
      (Quantity.total_map_le fun found hf =>
        ⟨(hdated found hf).waiting_nonneg, (hdated found hf).waiting_le⟩)
      ((Binary64.isFinite_div_ofNat_iff (Quantity.nonneg_total hturnarounds) hcount).mp
        hturnaround)
  constructor
  · exact entries_finite hruns hdated hspent hsums
  · rw [avgWaiting_summarize]
    exact (Binary64.isFinite_div_ofNat_iff (Quantity.nonneg_total hwaitings) hcount).mpr
      hwaiting
  · exact hsums.avgTurnaround
  · exact (Binary64.isFinite_div_ofNat_iff hexecution hcount).mpr hsums.totalExecution
  · exact hsums.totalExecution
  · exact hmakespan
  · exact hrate
  · exact hsums.totalTardiness
  · exact shares_finite hspent hmakespan hsums
  · exact hsums.avgUtilization

end Summary

end Metrics

section Runs

variable {pool : Pool Binary64} {run : Allocation Binary64} {bookings : List (Booking Binary64)}
  {runs : List (Completion Binary64 × Job Binary64)}

/-- The job of a completion is one of the pool, done. -/
theorem Call.Finishes.exists_job {T : Type} {pool : Pool T} {run : Allocation T}
    (h : Finishes pool run) {found : Completion T × Job T} (hj : found.2 ∈ run.pool.jobs)
    (hid : found.2.id = found.1.job) :
    ∃ job ∈ pool.jobs, job.markCompleted = found.2 ∧ job.id = found.1.job := by
  rw [h.jobs_eq] at hj
  obtain ⟨job, hmem, heq⟩ := List.mem_map.mp hj
  exact ⟨job, hmem, heq, (congrArg Job.id heq).trans hid⟩

namespace Timetable

variable (h : Timetable pool bookings run) (hv : pool.Valid)
  (hready : ∀ unit ∈ run.pool.units, unit.ready.isFinite = true)
include h hv hready

theorem spent : run.schedule.Spent bookings where
  finite := h.works.bookings_finite hv hready
  occupied_eq := h.occupied_eq
  executions := h.executions

theorem completion_finite {c : Completion Binary64} (hc : c ∈ run.schedule.completions) :
    c.start.isFinite = true ∧ c.finish.isFinite = true := by
  obtain ⟨⟨first, hfirst, hstart⟩, ⟨last, hlast, hfinish⟩, -, -⟩ := h.completions c hc
  have hbookings := h.works.bookings_finite hv hready
  exact ⟨hstart ▸ (hbookings first hfirst).start_finite, hfinish ▸ (hbookings last hlast).finite⟩

theorem dated (hfinishes : Call.Finishes pool run)
    (hruns : runs.map (·.1) = run.schedule.completions)
    (hfound : ∀ found ∈ runs, found.2 ∈ run.pool.jobs ∧ found.2.id = found.1.job) :
    ∀ found ∈ runs, Metrics.Dated found := by
  intro found hf
  have hc : found.1 ∈ run.schedule.completions := hruns ▸ List.mem_map_of_mem hf
  obtain ⟨hj, hid⟩ := hfound found hf
  obtain ⟨job, hmem, hdone, hjob⟩ := hfinishes.exists_job hj hid
  obtain ⟨-, -, hforward, other, hother, hsame, harrived⟩ := h.completions found.1 hc
  obtain rfl : other = job :=
    List.inj_on_of_nodup_map hv.jobs_distinct hother hmem (hsame.trans hjob.symm)
  have hvalid := hv.jobs_valid other hmem
  refine ⟨?_, ?_, ?_, hforward, (h.completion_finite hv hready hc).2⟩
  · rw [← hdone]
    exact hvalid.arrival_nonneg
  · rw [← hdone]
    exact fun deadline hd => Quantity.le_of_lt (hvalid.deadline_pos deadline hd).2
  · rw [← hdone]
    exact harrived

theorem makespan_finite : run.schedule.makespan.isFinite = true := by
  have hmem := (Quantity.foldl_larger_mem (run.schedule.completions.map (·.finish))
    LawfulQuantity.zero_le_zero).2
  rcases List.mem_cons.mp hmem with hzero | hmem
  · rw [Schedule.makespan, Quantity.largest, hzero]
    rfl
  · obtain ⟨c, hc, hfinish⟩ := List.mem_map.mp hmem
    rw [Schedule.makespan, Quantity.largest, ← hfinish]
    exact (h.completion_finite hv hready hc).2

theorem metrics_finite (hfinishes : Call.Finishes pool run) (hshort : pool.jobs.length < 2 ^ 64)
    {metrics : Metrics Binary64} (hmetrics : metrics ∈ run.metrics?)
    (hsums : metrics.SumsFinite) : metrics.Finite := by
  obtain ⟨runs, hne, hruns, hfound, rfl⟩ := hfinishes.exists_runs hv hmetrics
  have hdistinct : (run.pool.jobs.map (·.id)).Nodup := hfinishes.map_id_jobs ▸ hv.jobs_distinct
  have hlength : run.schedule.completions.length = pool.jobs.length := by
    simpa using hfinishes.jobs_perm.length_eq
  have hrate := (Metrics.deadlinesAgree_summarize hdistinct hruns hfound).rate_within
    (hlength ▸ hshort)
  have hone : (Binary64.ofNat 1).isFinite = true := Binary64.isFinite_ofNat_pow (k := 0) (by decide)
  exact Metrics.finite_summarize hruns (h.dated hv hready hfinishes hruns hfound)
    (h.spent hv hready) hne (h.makespan_finite hv hready)
    (fun rate hr => Binary64.isFinite_of_le (hrate rate hr).1 (hrate rate hr).2 hone) hsums

end Timetable

/-- A run is finite exactly if its last ready times and the sums behind its averages are. -/
theorem Call.finite_iff {call : Call Binary64} (hok : call.allocate pool = .ok run)
    (hshort : pool.jobs.length < 2 ^ 64) :
    run.Finite ↔ (∀ unit ∈ run.pool.units, unit.ready.isFinite = true) ∧
      ∀ metrics ∈ run.metrics?, metrics.SumsFinite := by
  have hv := Pool.valid_of_check (check_and_feasible hok).1
  have htimetable := call.timetable hok
  constructor
  · refine fun hfinite => ⟨hfinite.units, fun metrics hm => ?_⟩
    have hmetrics := hfinite.metrics metrics hm
    exact ⟨hmetrics.avgTurnaround, hmetrics.totalExecution, hmetrics.totalTardiness,
      hmetrics.avgUtilization⟩
  · rintro ⟨hready, hsums⟩
    refine ⟨fun c hc => htimetable.completion_finite hv hready hc, fun slice hs => ?_, hready,
      fun metrics hm => htimetable.metrics_finite hv hready (finishes_of_allocate hok) hshort hm
        (hsums metrics hm)⟩
    have hbooking := htimetable.works.bookings_finite hv hready _ (htimetable.slices slice hs)
    exact ⟨hbooking.start_finite, hbooking.finite⟩

end Runs

end JobAllocation
