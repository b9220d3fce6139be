import JobAllocation.Proofs.AssignmentAcceptance
import JobAllocation.Proofs.Binary64Sums

/-!
# What the metrics say of deadlines

Whether a completion is late, how many are, what share of those that could be, and by how much in
all are figures of their own, each gathered in its own way. They go together: a completion is late
exactly if it adds to the tardiness, since the difference of two values of which one is below the
other is not rounded to zero, and no sum of times is below one of its terms.
-/
namespace JobAllocation

namespace Job

variable {job : Job Binary64} {finish : Binary64}

theorem isLate_iff {T : Type} [Quantity T] {job : Job T} {finish : T} :
    job.isLate finish = true ↔ ∃ deadline ∈ job.deadline, deadline < finish := by
  unfold isLate
  cases job.deadline <;> simp

/-- A completion adds to the tardiness exactly if it is late. -/
theorem tardiness_eq_zero_or_pos (job : Job Binary64) (finish : Binary64) :
    (job.isLate finish = false ∧ job.tardiness finish = 0) ∨
      (job.isLate finish = true ∧ 0 < job.tardiness finish) := by
  unfold isLate tardiness
  cases job.deadline with
  | none => exact .inl ⟨rfl, rfl⟩
  | some deadline =>
    by_cases h : deadline < finish
    · exact .inr ⟨decide_eq_true h, by simpa [h] using Binary64.pos_sub h⟩
    · exact .inl ⟨decide_eq_false h, if_neg h⟩

theorem tardiness_nonneg (job : Job Binary64) (finish : Binary64) : 0 ≤ job.tardiness finish := by
  rcases job.tardiness_eq_zero_or_pos finish with ⟨-, h⟩ | ⟨-, h⟩
  · rw [h]
    exact LawfulQuantity.zero_le_zero
  · exact Quantity.le_of_lt h

theorem pos_tardiness_iff : 0 < job.tardiness finish ↔ job.isLate finish = true := by
  rcases job.tardiness_eq_zero_or_pos finish with ⟨hlate, h⟩ | ⟨hlate, h⟩
  · rw [h, hlate]
    exact iff_of_false (Quantity.lt_irrefl 0) Bool.false_ne_true
  · exact iff_of_true h hlate

end Job

namespace Metrics

section Failures

variable {T : Type} [Quantity T] {jobs : List (Job T)} {schedule : Schedule T}

omit [Quantity T] in
theorem identify_eq_error {c : Completion T} {e : AllocationError T}
    (h : identify jobs c = .error e) :
    e.kind = .configuration ∧ findJob? jobs c.job = none := by
  unfold identify at h
  split at h
  · cases h
  · next hjob =>
    cases h
    exact ⟨rfl, hjob⟩

theorem ofSchedule_eq_mapM (hne : schedule.completions ≠ []) :
    ofSchedule schedule jobs =
      (schedule.completions.mapM (identify jobs)).map (summarize schedule) := by
  rw [ofSchedule, if_neg (by simpa using hne)]
  rfl

/-- An unknown job is what stops the metrics of some completions. -/
theorem exists_unknown_of_error (hd : (jobs.map (·.id)).Nodup) (hne : schedule.completions ≠ [])
    {e : AllocationError T} (h : ofSchedule schedule jobs = .error e) :
    e.kind = .configuration ∧ ∃ c ∈ schedule.completions, c.job ∉ jobs.map (·.id) := by
  rw [ofSchedule_eq_mapM hne] at h
  cases hruns : schedule.completions.mapM (identify jobs) with
  | ok runs =>
    rw [hruns] at h
    cases h
  | error first =>
    rw [hruns] at h
    cases h
    obtain ⟨c, hc, herror⟩ := exists_of_mapM_eq_error hruns
    obtain ⟨hkind, hjob⟩ := identify_eq_error herror
    exact ⟨hkind, c, hc, (findJob?_eq_none_iff hd).mp hjob⟩

/-- The metrics of a schedule fail for the want of completions, or by the first one of an unknown
job. -/
structure FailsExactly (schedule : Schedule T) (jobs : List (Job T))
    (outcome : Except (AllocationError T) (Metrics T)) : Prop where
  empty_iff : (∃ e, outcome = .error e ∧ e.kind = .emptyResults) ↔ schedule.completions = []
  unknown_iff : (∃ e, outcome = .error e ∧ e.kind = .configuration) ↔
    ∃ c ∈ schedule.completions, c.job ∉ jobs.map (·.id)

theorem failsExactly_ofSchedule (hd : (jobs.map (·.id)).Nodup) (schedule : Schedule T) :
    FailsExactly schedule jobs (ofSchedule schedule jobs) := by
  by_cases hne : schedule.completions = []
  · have hfails : ofSchedule schedule jobs = .error .nothingCompleted := by
      rw [ofSchedule, hne]
      rfl
    rw [hfails]
    refine ⟨⟨fun _ => hne, fun _ => ⟨_, rfl, rfl⟩⟩, ?_, ?_⟩
    · rintro ⟨e, he, hkind⟩
      cases he
      cases hkind
    · rintro ⟨c, hc, -⟩
      rw [hne] at hc
      cases hc
  · refine ⟨⟨?_, fun h => absurd h hne⟩, ?_, ?_⟩
    · rintro ⟨e, he, hkind⟩
      rw [(exists_unknown_of_error hd hne he).1] at hkind
      cases hkind
    · rintro ⟨e, he, -⟩
      exact (exists_unknown_of_error hd hne he).2
    · rintro ⟨c, hc, hunknown⟩
      cases hruns : ofSchedule schedule jobs with
      | error e => exact ⟨e, rfl, (exists_unknown_of_error hd hne hruns).1⟩
      | ok metrics =>
        rw [ofSchedule_eq_mapM hne] at hruns
        cases hmap : schedule.completions.mapM (identify jobs) with
        | error first =>
          rw [hmap] at hruns
          cases hruns
        | ok runs =>
          obtain ⟨run, hrun⟩ := exists_of_mapM_eq_ok hmap hc
          obtain ⟨-, hj, hid⟩ := (identify_eq_ok_iff hd).mp hrun
          exact absurd (hid ▸ List.mem_map_of_mem hj) hunknown

end Failures

section Figures

variable {T : Type} [Quantity T]

/-- What an entry of the metrics says of the completion that it is about. -/
structure Describes (jobs : List (Job T)) (c : Completion T) (entry : JobMetrics T) : Prop where
  job_eq : entry.job = c.job
  unit_eq : entry.unit = c.unit
  late_iff : entry.late = true ↔
    ∃ job ∈ jobs, job.id = c.job ∧ ∃ deadline ∈ job.deadline, deadline < c.finish

/-- Some completion is of a job that has a deadline. -/
def AnyDue (schedule : Schedule T) (jobs : List (Job T)) : Prop :=
  ∃ c ∈ schedule.completions, ∃ job ∈ jobs, job.id = c.job ∧ job.deadline.isSome

/-- The figures of the metrics that are about deadlines. -/
structure DeadlinesAgree (schedule : Schedule T) (jobs : List (Job T)) (metrics : Metrics T) :
    Prop where
  completed_eq : metrics.completed = schedule.completions.length
  entries : List.Forall₂ (Describes jobs) schedule.completions metrics.jobs
  missed_none_iff : metrics.missedDeadlines = none ↔ ¬ AnyDue schedule jobs
  rate_none_iff : metrics.deadlineMissRate = none ↔ ¬ AnyDue schedule jobs
  missed_eq : ∀ missed ∈ metrics.missedDeadlines,
    missed = metrics.jobs.countP (·.late) ∧ missed ≤ metrics.completed
  /-- A list has at most as many elements as a machine word can count. -/
  rate_within : schedule.completions.length < 2 ^ 64 → ∀ rate ∈ metrics.deadlineMissRate,
    0 ≤ rate ∧ rate ≤ Quantity.ofNat 1
  tardiness_nonneg : 0 ≤ metrics.totalTardiness
  tardiness_pos_iff : 0 < metrics.totalTardiness ↔ ∃ entry ∈ metrics.jobs, entry.late = true

/-- The completions whose jobs have a deadline, with these jobs. -/
def dueRuns (runs : List (Completion T × Job T)) : List (Completion T × Job T) :=
  runs.filter (·.2.deadline.isSome)

variable {jobs : List (Job T)} {schedule : Schedule T} {runs : List (Completion T × Job T)}

omit [Quantity T] in
theorem dueRuns_eq_nil_iff (hd : (jobs.map (·.id)).Nodup)
    (hruns : runs.map (·.1) = schedule.completions)
    (hfound : ∀ run ∈ runs, run.2 ∈ jobs ∧ run.2.id = run.1.job) :
    dueRuns runs = [] ↔ ¬ AnyDue schedule jobs := by
  rw [dueRuns, List.filter_eq_nil_iff, AnyDue, ← hruns]
  constructor
  · rintro hnone ⟨c, hc, job, hj, hid, hsome⟩
    obtain ⟨run, hr, rfl⟩ := List.mem_map.mp hc
    obtain ⟨hj', hid'⟩ := hfound run hr
    have heq := List.inj_on_of_nodup_map hd hj hj' (hid.trans hid'.symm)
    exact hnone run hr (heq ▸ hsome)
  · intro hnone run hr hsome
    obtain ⟨hj, hid⟩ := hfound run hr
    exact hnone ⟨run.1, List.mem_map_of_mem hr, run.2, hj, hid, hsome⟩

theorem describes_ofCompletion (hd : (jobs.map (·.id)).Nodup) {run : Completion T × Job T}
    (hj : run.2 ∈ jobs) (hid : run.2.id = run.1.job) :
    Describes jobs run.1 (ofCompletion schedule run.1 run.2) where
  job_eq := rfl
  unit_eq := rfl
  late_iff := by
    refine Job.isLate_iff.trans ⟨fun h => ⟨run.2, hj, hid, h⟩, ?_⟩
    rintro ⟨job, hj', hid', h⟩
    rwa [List.inj_on_of_nodup_map hd hj' hj (hid'.trans hid.symm)] at h

theorem entries_summarize (hd : (jobs.map (·.id)).Nodup)
    (hruns : runs.map (·.1) = schedule.completions)
    (hfound : ∀ run ∈ runs, run.2 ∈ jobs ∧ run.2.id = run.1.job) :
    List.Forall₂ (Describes jobs) schedule.completions (summarize schedule runs).jobs := by
  rw [← hruns, summarize, List.forall₂_map_left_iff, List.forall₂_map_right_iff,
    List.forall₂_same]
  exact fun run hr => describes_ofCompletion hd (hfound run hr).1 (hfound run hr).2

/-- Only a completion whose job has a deadline is late. -/
theorem countP_dueRuns (schedule : Schedule T) (runs : List (Completion T × Job T)) :
    (dueRuns runs).countP (fun run => run.2.isLate run.1.finish) =
      (summarize schedule runs).jobs.countP (·.late) := by
  rw [dueRuns, List.countP_filter, summarize, List.countP_map]
  refine List.countP_congr fun run _ => ?_
  simp only [Bool.and_eq_true, and_iff_left_iff_imp, Function.comp_apply, ofCompletion]
  intro hlate
  obtain ⟨deadline, hdeadline, -⟩ := Job.isLate_iff.mp hlate
  rw [Option.mem_def.mp hdeadline]
  rfl

end Figures

section Binary64

variable {jobs : List (Job Binary64)} {schedule : Schedule Binary64}
  {runs : List (Completion Binary64 × Job Binary64)}

theorem missRate_within {missed due : Nat} (hle : missed ≤ due) (hpos : 0 < due)
    (hdue : due < 2 ^ 64) :
    0 ≤ Binary64.ofNat missed / Binary64.ofNat due ∧
      Binary64.ofNat missed / Binary64.ofNat due ≤ Binary64.ofNat 1 := by
  have hfinite := Binary64.isFinite_ofNat (Nat.le_of_lt hdue) (by decide)
  have hdue := Binary64.pos_ofNat hpos
  have hmissed := Binary64.nonneg_ofNat missed
  exact ⟨Binary64.nonneg_div hmissed hfinite hdue,
    Binary64.div_le_one hmissed (Binary64.ofNat_le_ofNat hle) hfinite hdue⟩

theorem pos_totalTardiness_iff :
    0 < (summarize schedule runs).totalTardiness ↔
      ∃ entry ∈ (summarize schedule runs).jobs, entry.late = true := by
  have hlate : (∃ entry ∈ (summarize schedule runs).jobs, entry.late = true) ↔
      ∃ run ∈ runs, run.2.isLate run.1.finish = true := by
    simp only [summarize, List.mem_map, exists_exists_and_eq_and]
    rfl
  have hnonneg : ∀ x ∈ runs.map fun run => run.2.tardiness run.1.finish, 0 ≤ x := by
    intro x hx
    obtain ⟨run, -, rfl⟩ := List.mem_map.mp hx
    exact Job.tardiness_nonneg run.2 run.1.finish
  rw [hlate]
  change 0 < Quantity.total (runs.map fun run => run.2.tardiness run.1.finish) ↔ _
  constructor
  · intro hpos
    by_contra hnone
    have hzero : ∀ x ∈ runs.map fun run => run.2.tardiness run.1.finish, x = 0 := by
      intro x hx
      obtain ⟨run, hr, rfl⟩ := List.mem_map.mp hx
      rcases run.2.tardiness_eq_zero_or_pos run.1.finish with ⟨-, h⟩ | ⟨h, -⟩
      · exact h
      · exact absurd ⟨run, hr, h⟩ hnone
    rw [Binary64.total_eq_zero hzero] at hpos
    exact Quantity.lt_irrefl 0 hpos
  · rintro ⟨run, hr, hlate⟩
    exact Quantity.lt_of_lt_of_le (Job.pos_tardiness_iff.mpr hlate)
      (Binary64.le_total hnonneg (List.mem_map_of_mem hr))

theorem deadlinesAgree_summarize (hd : (jobs.map (·.id)).Nodup)
    (hruns : runs.map (·.1) = schedule.completions)
    (hfound : ∀ run ∈ runs, run.2 ∈ jobs ∧ run.2.id = run.1.job) :
    DeadlinesAgree schedule jobs (summarize schedule runs) := by
  have hlength : runs.length = schedule.completions.length := by
    rw [← hruns, List.length_map]
  have hdue : (dueRuns runs).isEmpty = true ↔ ¬ AnyDue schedule jobs := by
    rw [List.isEmpty_iff, dueRuns_eq_nil_iff hd hruns hfound]
  have hmissed : (summarize schedule runs).missedDeadlines = if (dueRuns runs).isEmpty then none
      else some ((dueRuns runs).countP fun run => run.2.isLate run.1.finish) := rfl
  have hrate : (summarize schedule runs).deadlineMissRate = if (dueRuns runs).isEmpty then none
      else some (Binary64.ofNat ((dueRuns runs).countP fun run => run.2.isLate run.1.finish) /
        Binary64.ofNat (dueRuns runs).length) := rfl
  refine ⟨hlength, entries_summarize hd hruns hfound, ?_, ?_, ?_, ?_, ?_, pos_totalTardiness_iff⟩
  · rw [hmissed, ite_eq_left_iff]
    simpa using hdue
  · rw [hrate, ite_eq_left_iff]
    simpa using hdue
  · intro missed hm
    rw [hmissed] at hm
    split at hm
    · cases hm
    · cases hm
      refine ⟨countP_dueRuns schedule runs, ?_⟩
      exact Nat.le_trans List.countP_le_length (List.length_filter_le _ _)
  · intro hshort rate hr
    rw [hrate] at hr
    split at hr
    · cases hr
    · next hne =>
      cases hr
      have hlen : (dueRuns runs).length ≤ runs.length := List.length_filter_le _ _
      exact missRate_within List.countP_le_length
        (List.length_pos_iff.mpr (by simpa using hne)) (by omega)
  · refine Quantity.nonneg_total fun x hx => ?_
    obtain ⟨run, -, rfl⟩ := List.mem_map.mp hx
    exact Job.tardiness_nonneg run.2 run.1.finish

end Binary64

/-- The metrics of a schedule of jobs with distinct numbers fail exactly if there are no completions
or one of them is of an unknown job. Otherwise their figures about deadlines go together. -/
theorem deadlines_consistent (schedule : Schedule Binary64) (jobs : List (Job Binary64))
    (distinct : (jobs.map (·.id)).Nodup) :
    FailsExactly schedule jobs (ofSchedule schedule jobs) ∧
      (schedule.completions ≠ [] → (∀ c ∈ schedule.completions, c.job ∈ jobs.map (·.id)) →
        ∃ metrics, ofSchedule schedule jobs = .ok metrics ∧
          DeadlinesAgree schedule jobs metrics) := by
  refine ⟨failsExactly_ofSchedule distinct schedule, fun hne hknown => ?_⟩
  obtain ⟨runs, hruns, hfound, hmetrics⟩ := exists_summarize distinct hknown hne
  exact ⟨_, hmetrics, deadlinesAgree_summarize distinct hruns hfound⟩

/-- One job with a deadline and one without. -/
def oneDue : List (Job Binary64) :=
  [⟨0, "due", 100, 0, some (Quantity.ofNat 2), 100⟩, ⟨1, "free", 100, 0, none, 100⟩]

/-- The job with a deadline meets it once and then misses it forever, and the other one is done in
between. -/
def metAndMissed : Schedule Binary64 := .ofCompletions
  [⟨0, 0, 0, Quantity.ofNat 2⟩, ⟨1, 0, 0, Quantity.ofNat 5⟩, ⟨0, 1, 0, Quantity.infinity⟩]

theorem deadlines_consistent_metAndMissed :
    (oneDue.map (·.id)).Nodup ∧
      ∃ metrics, ofSchedule metAndMissed oneDue = .ok metrics ∧ metrics.completed = 3 ∧
        (∃ missed ∈ metrics.missedDeadlines, 0 < missed ∧ missed ≤ 3) ∧
        (∃ rate ∈ metrics.deadlineMissRate, 0 ≤ rate ∧ rate ≤ Quantity.ofNat 1) ∧
        0 < metrics.totalTardiness := by
  have hdistinct : (oneDue.map (·.id)).Nodup := by decide
  obtain ⟨-, hok⟩ := deadlines_consistent metAndMissed oneDue hdistinct
  obtain ⟨metrics, hmetrics, hagree⟩ := hok (by decide) (by decide)
  have hdue : AnyDue metAndMissed oneDue :=
    ⟨_, List.mem_cons_self, _, List.mem_cons_self, rfl, rfl⟩
  obtain ⟨missed, hmissed⟩ :=
    Option.ne_none_iff_exists'.mp fun h => hagree.missed_none_iff.mp h hdue
  obtain ⟨rate, hrate⟩ :=
    Option.ne_none_iff_exists'.mp fun h => hagree.rate_none_iff.mp h hdue
  obtain ⟨heq, hle⟩ := hagree.missed_eq missed hmissed
  -- The last completion is late.
  obtain ⟨entry, he, hentry⟩ := exists_of_mem_forall₂ hagree.entries.flip
    (show ⟨0, 1, 0, Quantity.infinity⟩ ∈ metAndMissed.completions by decide)
  have hlate : entry.late = true :=
    hentry.late_iff.mpr ⟨_, List.mem_cons_self, rfl, _, rfl, by decide +kernel⟩
  have hpos : 0 < missed := heq ▸ List.countP_pos_iff.mpr ⟨entry, he, hlate⟩
  rw [hagree.completed_eq] at hle
  exact ⟨hdistinct, metrics, hmetrics, hagree.completed_eq, ⟨missed, hmissed, hpos, hle⟩,
    ⟨rate, hrate, hagree.rate_within (by decide) rate hrate⟩,
    hagree.tardiness_pos_iff.mpr ⟨entry, he, hlate⟩⟩

end Metrics
end JobAllocation
