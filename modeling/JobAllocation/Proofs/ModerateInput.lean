import JobAllocation.Proofs.FiniteReports
import JobAllocation.Proofs.UnitIndependence

/-!
# Input that is far from the largest times

If the input keeps to moderate powers of two, so does every time of a run, and every total and share
is finite, however many jobs there are.
-/
namespace JobAllocation

/-- All times and durations are at most `2 ^ p`, and all speeds at most `2 ^ q`. -/
structure Pool.Moderate (pool : Pool Binary64) (p q : Nat) : Prop where
  arrival_le : ∀ job ∈ pool.jobs, job.arrival ≤ Quantity.ofNat (2 ^ p)
  ready_le : ∀ unit ∈ pool.units, unit.ready ≤ Quantity.ofNat (2 ^ p)
  duration_le : ∀ job ∈ pool.jobs, ∀ unit ∈ pool.units,
    Quantity.ofNat job.length / unit.speed ≤ Quantity.ofNat (2 ^ p)
  speed_le : ∀ unit ∈ pool.units, unit.speed ≤ Quantity.ofNat (2 ^ q)

/-- Ends neither before one instruction can be done nor after the sums of times saturate. -/
structure Booking.Moderate (p q : Nat) (b : Booking Binary64) : Prop where
  lasts : Quantity.ofNat 1 / Quantity.ofNat (2 ^ q) ≤ b.finish
  ends : b.finish ≤ Quantity.ofNat (2 ^ (p + 53))

/-- A piece of work that begins at a moderate time ends at one. -/
theorem Pool.Moderate.ends {pool : Pool Binary64} {p q : Nat} (h : pool.Moderate p q)
    (hp : p + 53 ≤ 1024) (hq : q < 1024) {job : Job Binary64} (hj : job ∈ pool.jobs)
    {unit : ExecutionUnit Binary64} (hu : unit ∈ pool.units) (hv : unit.Valid) {work : Nat}
    (hpos : 0 < work) (hle : work ≤ job.length) {start : Binary64} (h0 : 0 ≤ start)
    (hstart : start ≤ Quantity.ofNat (2 ^ (p + 53))) :
    Quantity.ofNat 1 / Quantity.ofNat (2 ^ q) ≤ start + Quantity.ofNat work / unit.speed ∧
      start + Quantity.ofNat work / unit.speed ≤ Quantity.ofNat (2 ^ (p + 53)) := by
  have hwork0 := LawfulQuantity.work_nonneg work hv.speed_finite hv.speed_pos
  have hinstruction : Quantity.ofNat 1 / Quantity.ofNat (2 ^ q) ≤
      Quantity.ofNat work / unit.speed :=
    Binary64.div_le_div (Binary64.nonneg_ofNat 1) (Binary64.ofNat_le_ofNat hpos)
      (Binary64.isFinite_ofNat_pow hq) hv.speed_pos (h.speed_le unit hu)
  have hwork : Quantity.ofNat work / unit.speed ≤ Quantity.ofNat (2 ^ p) :=
    Quantity.le_trans (Binary64.div_le_div (Binary64.nonneg_ofNat work)
      (Binary64.ofNat_le_ofNat hle) hv.speed_finite hv.speed_pos
      (Quantity.le_refl (Quantity.le_of_lt hv.speed_pos))) (h.duration_le job hj unit hu)
  exact ⟨Quantity.le_trans hinstruction (Binary64.le_add_left h0 hwork0),
    Binary64.add_le_pow hp h0 hwork0 hstart hwork⟩

theorem Works.moderate {pool : Pool Binary64} {p q : Nat} (hm : pool.Moderate p q)
    (hv : pool.Valid) (hp : p + 53 ≤ 1024) (hq : q < 1024)
    {units later : List (ExecutionUnit Binary64)} {bookings : List (Booking Binary64)}
    (h : Works pool.jobs units bookings later) (hl : NoEarlier pool.units units)
    (hw : Working units) (hready : ∀ unit ∈ units, unit.ready ≤ Quantity.ofNat (2 ^ (p + 53))) :
    (∀ b ∈ bookings, b.Moderate p q) ∧
      ∀ unit ∈ later, unit.ready ≤ Quantity.ofNat (2 ^ (p + 53)) := by
  induction h with
  | nil => exact ⟨nofun, hready⟩
  | @cons units later job unit b rest work job_mem unit_mem unit_eq work_pos work_le start_same
      finish_eq _ ih =>
    obtain ⟨first, hf, -, hspeed, -⟩ := hl unit unit_mem
    have harrival := (hv.jobs_valid job job_mem).arrival_nonneg
    have hready0 := hw.ready_nonneg unit unit_mem
    obtain ⟨-, hfree, -⟩ := hw.times_of_prompt unit_mem harrival start_same work
    have hlatest : Quantity.larger unit.ready job.arrival ≤ Quantity.ofNat (2 ^ (p + 53)) :=
      Quantity.larger_le hready0 (hready unit unit_mem) (Quantity.le_trans
        (hm.arrival_le job job_mem) (Binary64.ofNat_pow_le (Nat.le_add_right p 53)))
    have hends := hm.ends hp hq job_mem hf (hv.units_valid first hf) work_pos work_le
      (Quantity.le_trans hready0 hfree) (Quantity.le_trans start_same.1 hlatest)
    rw [hspeed, ← finish_eq] at hends
    obtain ⟨hrest, hlater⟩ := ih (hl.advance _ _) (hw.advance _ _) fun after ha => by
      obtain ⟨before, hb, -, -, hr⟩ := exists_of_mem_advanceUnit ha
      rw [hr]
      split
      · exact hends.2
      · exact hready before hb
    exact ⟨List.forall_mem_cons.mpr ⟨⟨hends.1, hends.2⟩, hrest⟩, hlater⟩

namespace Schedule.Spent

variable {schedule : Schedule Binary64} {bookings : List (Booking Binary64)} {p q : Nat}
  (h : schedule.Spent bookings) (hmoderate : ∀ b ∈ bookings, b.Moderate p q)
include h hmoderate

theorem durations_le {own : List (Booking Binary64)} (hown : own ⊆ bookings) :
    ∀ x ∈ own.map Booking.duration, 0 ≤ x ∧ x ≤ Quantity.ofNat (2 ^ (p + 53)) :=
  List.forall_mem_map.mpr fun b hb => ⟨(h.finite b (hown hb)).duration_nonneg,
    Quantity.le_trans (h.finite b (hown hb)).duration_le (hmoderate b (hown hb)).ends⟩

theorem execution_le (hp : p + 106 ≤ 1024) {c : Completion Binary64}
    (hc : c ∈ schedule.completions) :
    (schedule.executionTime? c.job).getD c.span ≤ Quantity.ofNat (2 ^ (p + 106)) := by
  obtain ⟨own, hown, heq⟩ := h.executions c hc
  rw [heq]
  exact Binary64.sum_le_pow hp (h.durations_le hmoderate hown)

theorem busyTime_le (hp : p + 106 ≤ 1024) (unit : UnitId) :
    schedule.busyTime unit ≤ Quantity.ofNat (2 ^ (p + 106)) := by
  rw [h.busyTime_eq]
  exact Binary64.total_le_pow hp (h.durations_le hmoderate (List.filter_subset_self _))

/-- Where a job is done, time has passed for an instruction at least. -/
theorem makespan_lasts (hends : ∀ c ∈ schedule.completions, ∃ b ∈ bookings, b.finish = c.finish)
    (hne : schedule.completions ≠ []) :
    Quantity.ofNat 1 / Quantity.ofNat (2 ^ q) ≤ schedule.makespan := by
  have hnonneg : ∀ x ∈ schedule.completions.map (·.finish), 0 ≤ x := by
    refine List.forall_mem_map.mpr fun c hc => ?_
    obtain ⟨b, hb, heq⟩ := hends c hc
    exact heq ▸ (h.finite b hb).finish_nonneg
  obtain ⟨c, hc⟩ := List.exists_mem_of_ne_nil schedule.completions hne
  obtain ⟨b, hb, heq⟩ := hends c hc
  have hle : c.finish ≤ schedule.makespan := Quantity.le_largest hnonneg (List.mem_map_of_mem hc)
  exact Quantity.le_trans (hmoderate b hb).lasts (heq ▸ hle)

theorem shares_le (hpq : p + 106 + q < 1024) (hmakespan : schedule.makespan.isFinite = true)
    (hlasts : Quantity.ofNat 1 / Quantity.ofNat (2 ^ q) ≤ schedule.makespan) :
    ∀ share ∈ schedule.utilizations.map (·.2),
      0 ≤ share ∧ share ≤ Quantity.ofNat (2 ^ (p + 106 + q)) := by
  intro share hshare
  refine ⟨h.share_nonneg hmakespan share hshare, ?_⟩
  obtain ⟨entry, he, rfl⟩ := List.mem_map.mp hshare
  obtain ⟨-, unit, heq⟩ := exists_share he
  rw [heq]
  exact Binary64.div_le_pow (h.busyTime_nonneg unit) (h.busyTime_le hmoderate (by omega) unit)
    hmakespan hlasts hpq

end Schedule.Spent

namespace Metrics

variable {schedule : Schedule Binary64} {bookings : List (Booking Binary64)}
  {runs : List (Completion Binary64 × Job Binary64)} {p q : Nat}

theorem sumsFinite_of_moderate (hpq : p + q ≤ 864) (hruns : runs.map (·.1) = schedule.completions)
    (hne : runs ≠ []) (hdated : ∀ found ∈ runs, Dated found) (hspent : schedule.Spent bookings)
    (hmoderate : ∀ b ∈ bookings, b.Moderate p q)
    (hends : ∀ c ∈ schedule.completions, ∃ b ∈ bookings, b.finish = c.finish)
    (hmakespan : schedule.makespan.isFinite = true) : (summarize schedule runs).SumsFinite := by
  have hmem {found : Completion Binary64 × Job Binary64} (hf : found ∈ runs) :
      found.1 ∈ schedule.completions := hruns ▸ List.mem_map_of_mem hf
  have hfinish : ∀ found ∈ runs, found.1.finish ≤ Quantity.ofNat (2 ^ (p + 53)) := by
    intro found hf
    obtain ⟨b, hb, heq⟩ := hends found.1 (hmem hf)
    exact heq ▸ (hmoderate b hb).ends
  have hturnarounds : ∀ x ∈ runs.map fun found => found.1.finish - found.2.arrival,
      0 ≤ x ∧ x ≤ Quantity.ofNat (2 ^ (p + 53)) :=
    List.forall_mem_map.mpr fun found hf => ⟨(hdated found hf).turnaround_nonneg,
      Quantity.le_trans (hdated found hf).turnaround_le (hfinish found hf)⟩
  have hexecutions : ∀ x ∈ schedule.completions.map fun c =>
      (schedule.executionTime? c.job).getD c.span, 0 ≤ x ∧ x ≤ Quantity.ofNat (2 ^ (p + 106)) :=
    List.forall_mem_map.mpr fun c hc =>
      ⟨hspent.execution_nonneg hc, hspent.execution_le hmoderate (by omega) hc⟩
  have htardiness : ∀ x ∈ runs.map fun found => found.2.tardiness found.1.finish,
      0 ≤ x ∧ x ≤ Quantity.ofNat (2 ^ (p + 53)) :=
    List.forall_mem_map.mpr fun found hf => ⟨Job.tardiness_nonneg found.2 found.1.finish,
      Quantity.le_trans (hdated found hf).tardiness_le (hfinish found hf)⟩
  have hlasts := hspent.makespan_lasts hmoderate hends fun hnil => hne (by
    simpa [hnil] using hruns)
  have hshares := hspent.shares_le hmoderate (by omega) hmakespan hlasts
  constructor
  · rw [avgTurnaround_summarize]
    exact (Binary64.isFinite_div_ofNat_iff (Quantity.nonneg_total fun x hx =>
      (hturnarounds x hx).1) (List.length_pos_iff.mpr hne)).mpr
        (Binary64.isFinite_total (by omega) hturnarounds)
  · rw [totalExecution_summarize hruns]
    exact Binary64.isFinite_total (by omega) hexecutions
  · exact Binary64.isFinite_total (by omega) htardiness
  · exact (isFinite_mean_iff fun x hx => (hshares x hx).1).mpr
      (Binary64.isFinite_sum (by omega) hshares)

end Metrics

/-- A run of moderate input is finite. -/
theorem Call.finite_of_moderate {call : Call Binary64} {pool : Pool Binary64}
    {run : Allocation Binary64} (hok : call.allocate pool = .ok run)
    (hshort : pool.jobs.length < 2 ^ 64) {p q : Nat} (hpq : p + q ≤ 864)
    (hmoderate : pool.Moderate p q) : run.Finite := by
  have hv := Pool.valid_of_check (check_and_feasible hok).1
  have hfinishes := finishes_of_allocate hok
  have htimetable := call.timetable hok
  obtain ⟨hbookings, hlater⟩ := htimetable.works.moderate hmoderate hv (by omega) (by omega)
    (noEarlier_refl hv.working) hv.working fun unit hu => Quantity.le_trans
      (hmoderate.ready_le unit hu) (Binary64.ofNat_pow_le (Nat.le_add_right p 53))
  have hworking := htimetable.works.working hv.working
  have hready : ∀ unit ∈ run.pool.units, unit.ready.isFinite = true := fun unit hu =>
    Binary64.isFinite_of_le (hworking.ready_nonneg unit hu) (hlater unit hu)
      (Binary64.isFinite_ofNat_pow (by omega))
  refine (finite_iff hok hshort).mpr ⟨hready, fun metrics hm => ?_⟩
  obtain ⟨runs, hne, hruns, hfound, rfl⟩ := hfinishes.exists_runs hv hm
  exact Metrics.sumsFinite_of_moderate hpq hruns hne
    (htimetable.dated hv hready hfinishes hruns hfound) (htimetable.spent hv hready) hbookings
    (fun c hc => (htimetable.completions c hc).finishes) (htimetable.makespan_finite hv hready)

/-- Every run of valid input is finite exactly if the last ready times and the sums over jobs, units
and slices are. They are so for any number of jobs if times, durations and speeds are moderate. -/
theorem finite_iff_sumsFinite (call : Call Binary64) (pool : Pool Binary64)
    (valid : pool.check = .ok ()) (feasible : call.Feasible pool)
    (short : pool.jobs.length < 2 ^ 64) :
    ∃ run, call.allocate pool = .ok run ∧
      (∀ policy : Policy, policy.allocator.call = call → Report.ofPolicy policy pool =
        .ok ⟨policy, run.schedule, run.metrics?, run.pool.units⟩) ∧
      (run.Finite ↔ (∀ unit ∈ run.pool.units, unit.ready.isFinite = true) ∧
        ∀ metrics ∈ run.metrics?, metrics.SumsFinite) ∧
      ∀ p q, p + q ≤ 864 → pool.Moderate p q → run.Finite := by
  obtain ⟨run, hok, -⟩ := Call.exists_allocate valid feasible
  refine ⟨run, hok, ?_, Call.finite_iff hok short,
    fun p q hpq hmoderate => Call.finite_of_moderate hok short hpq hmoderate⟩
  rintro policy rfl
  exact Report.ofPolicy_eq_run hok

/-- Two jobs of different lengths in turns on two units are moderate in every respect. -/
theorem finite_iff_sumsFinite_twoUnits :
    twoUnits.check = .ok () ∧ (Policy.roundRobin 100).allocator.call.Feasible twoUnits ∧
      twoUnits.jobs.length < 2 ^ 64 ∧ twoUnits.Moderate 4 7 ∧
      ∃ run : Allocation Binary64, Report.ofPolicy (.roundRobin 100) twoUnits =
          .ok ⟨.roundRobin 100, run.schedule, run.metrics?, run.pool.units⟩ ∧ run.Finite := by
  have hcheck : twoUnits.check = .ok () := twoUnits.check_eq_ok_iff.mpr (by decide +kernel)
  have hfeasible : (Policy.roundRobin 100).allocator.call.Feasible twoUnits := by
    change 0 < 100
    decide
  have hmoderate : twoUnits.Moderate 4 7 :=
    ⟨by decide +kernel, by decide +kernel, by decide +kernel, by decide +kernel⟩
  obtain ⟨run, -, hreport, -, hfinite⟩ := finite_iff_sumsFinite
    (Policy.roundRobin 100).allocator.call twoUnits hcheck hfeasible (by decide)
  exact ⟨hcheck, hfeasible, by decide, hmoderate, run, hreport (.roundRobin 100) rfl,
    hfinite 4 7 (by decide) hmoderate⟩

/-- Two jobs for a unit that is free when half of the exponent range is over. -/
def freeLate : Pool Binary64 where
  jobs := [⟨0, "first", 1, 0, none, 1⟩, ⟨1, "second", 1, 0, none, 1⟩]
  units := [⟨0, "late", Quantity.ofNat 1, Quantity.ofNat (2 ^ 1023)⟩]

/-- Both jobs wait for the same finite time, and for an infinite one on average. -/
theorem not_finite_freeLate :
    freeLate.check = .ok () ∧ Policy.fcfs.allocator.call.Feasible freeLate ∧
      ∃ run, Policy.fcfs.allocator.call.allocate freeLate = .ok run ∧
        (∀ unit ∈ run.pool.units, unit.ready.isFinite = true) ∧
        (∃ metrics ∈ run.metrics?, metrics.avgWaiting = .infinite false ∧
          ∀ entry ∈ metrics.jobs, entry.waiting = Quantity.ofNat (2 ^ 1023)) ∧
        ¬ run.Finite := by
  have hrun : ∃ run, Policy.fcfs.allocator.call.allocate freeLate = .ok run ∧
      (∀ unit ∈ run.pool.units, unit.ready.isFinite = true) ∧
      ∃ metrics ∈ run.metrics?, metrics.avgWaiting = .infinite false ∧
        ∀ entry ∈ metrics.jobs, entry.waiting = Quantity.ofNat (2 ^ 1023) :=
    exists_ok_of_decide (by decide +kernel)
  obtain ⟨run, hok, hready, metrics, hmetrics, hwaiting, hentries⟩ := hrun
  refine ⟨freeLate.check_eq_ok_iff.mpr (by decide +kernel), trivial, run, hok, hready,
    ⟨metrics, hmetrics, hwaiting, hentries⟩, fun hfinite => ?_⟩
  have hmean := (hfinite.metrics metrics hmetrics).avgWaiting
  rw [hwaiting] at hmean
  cases hmean

end JobAllocation
