import JobAllocation.Proofs.CommitmentOrder

/-!
# Earliest deadline first minimises the maximum lateness

Earliest deadline first ranks by due date, a job without a deadline being due last. On one unit the
jobs that are due by some date are then all done before any other, and whatever the order, the last
of them is not done before as much work has been.
-/
namespace JobAllocation

/-- How far after its deadline each job finishes, of those that have one. -/
def latenesses (jobs : List (Job Exact)) (completions : List (Completion Exact)) : List Exact :=
  completions.filterMap fun c =>
    (findJob? jobs c.job).bind fun job => job.deadline.map fun deadline => c.finish - deadline

/-- The largest lateness, if any job has a deadline. -/
def maxLateness? (jobs : List (Job Exact)) (completions : List (Completion Exact)) :
    Option Exact :=
  Selection.best? (fun a b => decide (b < a)) (latenesses jobs completions)

theorem Exact.le_self (x : Exact) : x ≤ x := (le_total x x).elim id id

theorem Exact.sub_noMore {a b d e : Rat} (hab : rational a ≤ rational b)
    (hed : rational e ≤ rational d) : NoMore (rational a - rational d) (rational b - rational e) :=
  ⟨a - d, b - e, rfl, rfl, sub_le_sub (rational_le_iff.mp hab) (rational_le_iff.mp hed)⟩

/-- The largest lateness is one of them and at least all of them. -/
theorem exists_largest {xs : List Exact} (hne : xs ≠ []) :
    ∃ largest ∈ xs, Selection.best? (fun a b => decide (b < a)) xs = some largest ∧
      ∀ x ∈ xs, x ≤ largest := by
  cases hbest : Selection.best? (fun a b : Exact => decide (b < a)) xs with
  | none => exact absurd (Selection.best?_eq_none_iff.mp hbest) hne
  | some largest =>
    refine ⟨largest, Selection.mem_of_best? hbest, rfl, ?_⟩
    refine Selection.best?_le (fun a b => b ≤ a) (fun x _ => x.le_self)
      (fun a b c hab hbc => Quantity.le_trans hbc hab) ?_ ?_ hbest
    · exact fun a _ b _ h => Quantity.le_of_lt (of_decide_eq_true h)
    · intro a _ b _ h
      by_contra hn
      have hle := (Exact.le_total a b).resolve_right hn
      exact of_decide_eq_false h ((Quantity.lt_iff a b).mpr ⟨hle, hn⟩)

section Orders

variable {unit : UnitId} {speed time : Rat} {order other jobs : List (Job Exact)}
  {urgent : Job Exact → Bool} {run : Completion Exact × Job Exact}

theorem mem_of_mem_backToBack (h : run ∈ backToBack unit speed time order) : run.2 ∈ order := by
  rw [← map_snd_backToBack unit speed time order]
  exact List.mem_map_of_mem h

/-- The instructions of all jobs. -/
def work (order : List (Job Exact)) : Nat := (order.map (·.length)).sum

/-- Jobs that go before all others are done no later than all of their work. -/
theorem finish_le_work (hs : 0 ≤ speed)
    (hfirst : order.Pairwise fun a b => urgent b = true → urgent a = true)
    (hr : run ∈ backToBack unit speed time order) (hu : urgent run.2 = true) :
    run.1.finish ≤ .rational (time + work (order.filter urgent) / speed) := by
  induction order generalizing time with
  | nil => simp [backToBack] at hr
  | cons job rest ih =>
    obtain ⟨hjob, hrest⟩ := List.pairwise_cons.mp hfirst
    have hwork (hu : urgent job = true) :
        time + (work ((job :: rest).filter urgent) : Rat) / speed =
          time + job.length / speed + work (rest.filter urgent) / speed := by
      rw [List.filter_cons_of_pos hu, work, List.map_cons, List.sum_cons, ← work, Nat.cast_add,
        add_div, add_assoc]
    rcases List.mem_cons.mp hr with rfl | hr
    · rw [hwork hu]
      exact Exact.rational_le_iff.mpr
        (le_add_of_nonneg_right (div_nonneg (Nat.cast_nonneg _) hs))
    · rw [hwork (hjob run.2 (mem_of_mem_backToBack hr) hu)]
      exact ih hrest hr

/-- Some job of a kind is not done before all work of its kind could be. -/
theorem exists_work_le_finish (hs : 0 ≤ speed) (hany : ∃ job ∈ order, urgent job = true) :
    ∃ run ∈ backToBack unit speed time order, urgent run.2 = true ∧
      .rational (time + work (order.filter urgent) / speed) ≤ run.1.finish := by
  induction order generalizing time with
  | nil => simp at hany
  | cons job rest ih =>
    have hwork : work ((job :: rest).filter urgent) ≤ job.length + work (rest.filter urgent) := by
      rw [List.filter_cons]
      split
      · exact Nat.le_refl _
      · exact Nat.le_add_left _ _
    by_cases hrest : ∃ later ∈ rest, urgent later = true
    · obtain ⟨run, hr, hu, hle⟩ := ih hrest
      refine ⟨run, List.mem_cons_of_mem _ hr, hu, Quantity.le_trans ?_ hle⟩
      rw [Exact.rational_le_iff, add_assoc, ← add_div]
      have hcast : (work ((job :: rest).filter urgent) : Rat) ≤
          job.length + work (rest.filter urgent) := by exact_mod_cast hwork
      linarith [div_le_div_of_nonneg_right hcast hs]
    · -- The first job is the last of its kind.
      obtain ⟨found, hm, hu⟩ := hany
      obtain rfl := (List.mem_cons.mp hm).resolve_right fun hm => hrest ⟨found, hm, hu⟩
      have hnone : rest.filter urgent = [] :=
        List.filter_eq_nil_iff.mpr fun later hm h => hrest ⟨later, hm, h⟩
      refine ⟨_, List.mem_cons_self, hu, ?_⟩
      rw [List.filter_cons_of_pos hu, hnone]
      exact Exact.le_self _

/-- Whatever the order, some job that is due as early is done as late as one by due date. -/
theorem exists_finish_le (hs : 0 ≤ speed) (hsorted : order.Pairwise fun a b => a.due ≤ b.due)
    (hp : order.Perm other) (hr : run ∈ backToBack unit speed time order) :
    ∃ again ∈ backToBack unit speed time other,
      again.2.due ≤ run.2.due ∧ run.1.finish ≤ again.1.finish := by
  have hself : decide (run.2.due ≤ run.2.due) = true := decide_eq_true (Exact.le_self _)
  have hfirst : order.Pairwise fun a b =>
      decide (b.due ≤ run.2.due) = true → decide (a.due ≤ run.2.due) = true :=
    hsorted.imp fun hab hb =>
      decide_eq_true (Quantity.le_trans hab (of_decide_eq_true hb))
  have hle := finish_le_work hs hfirst hr hself
  have hany : ∃ job ∈ other, (fun job : Job Exact => decide (job.due ≤ run.2.due)) job = true :=
    ⟨run.2, hp.subset (mem_of_mem_backToBack hr), hself⟩
  obtain ⟨again, hagain, hdue, hge⟩ := exists_work_le_finish hs hany
  refine ⟨again, hagain, of_decide_eq_true hdue, Quantity.le_trans hle ?_⟩
  rw [work, ((hp.filter _).map _).sum_eq]
  exact hge

/-- A job that is due no later than one with a deadline has a deadline itself. -/
theorem Job.exists_deadline_of_due_le {a b : Job Exact} (h : a.due ≤ b.due) {deadline : Rat}
    (hb : b.deadline = some (.rational deadline)) :
    ∃ earlier, a.deadline = some (.rational earlier) ∧
      Exact.rational earlier ≤ .rational deadline := by
  rw [Job.due, Job.due, hb] at h
  cases ha : a.deadline with
  | none =>
    rw [ha] at h
    exact absurd h (Exact.not_never_le_rational deadline)
  | some earlier =>
    rw [ha] at h
    cases earlier with
    | rational earlier => exact ⟨earlier, rfl, h⟩
    | never => exact absurd h (Exact.not_never_le_rational deadline)

theorem finish_eq_of_mem_backToBack (h : run ∈ backToBack unit speed time order) :
    run.1.finish = .rational run.1.finish.value := by
  induction order generalizing time with
  | nil => simp [backToBack] at h
  | cons job rest ih =>
    rcases List.mem_cons.mp h with rfl | h
    · rfl
    · exact ih h

theorem mem_latenesses_iff (hd : (jobs.map (·.id)).Nodup) (hsub : order ⊆ jobs) {x : Exact} :
    x ∈ latenesses jobs ((backToBack unit speed time order).map (·.1)) ↔
      ∃ run ∈ backToBack unit speed time order, ∃ deadline,
        run.2.deadline = some deadline ∧ run.1.finish - deadline = x := by
  have hfind : ∀ run ∈ backToBack unit speed time order,
      findJob? jobs run.1.job = some run.2 := fun run hr =>
    job_eq_of_mem_backToBack hr ▸ findJob?_of_mem hd (hsub (mem_of_mem_backToBack hr))
  simp only [latenesses, List.mem_filterMap, List.mem_map]
  constructor
  · rintro ⟨_, ⟨run, hr, rfl⟩, hx⟩
    rw [hfind run hr, Option.bind_some, Option.map_eq_some_iff] at hx
    exact ⟨run, hr, hx⟩
  · rintro ⟨run, hr, hx⟩
    refine ⟨_, ⟨run, hr, rfl⟩, ?_⟩
    rwa [hfind run hr, Option.bind_some, Option.map_eq_some_iff]

variable (hs : 0 ≤ speed) (hd : (jobs.map (·.id)).Nodup) (hsub : order ⊆ jobs)
  (hdeadline : ∀ job ∈ jobs, ∀ deadline ∈ job.deadline, deadline = .rational deadline.value)
  (hsorted : order.Pairwise fun a b => a.due ≤ b.due) (hp : order.Perm other)

include hd hsub hdeadline in
theorem lateness_eq {x : Exact}
    (hx : x ∈ latenesses jobs ((backToBack unit speed time order).map (·.1))) :
    x = .rational x.value := by
  obtain ⟨run, hr, deadline, hrun, rfl⟩ := (mem_latenesses_iff hd hsub).mp hx
  rw [finish_eq_of_mem_backToBack hr,
    hdeadline run.2 (hsub (mem_of_mem_backToBack hr)) deadline hrun]
  rfl

include hs hsub hdeadline hsorted hp in
/-- Whatever the order, some job with as early a deadline is done as late as one by due date. -/
theorem exists_deadline_le (hr : run ∈ backToBack unit speed time order) {deadline : Exact}
    (hrun : run.2.deadline = some deadline) :
    ∃ again ∈ backToBack unit speed time other, ∃ earlier, again.2.deadline = some earlier ∧
      run.1.finish ≤ again.1.finish ∧ Exact.NoMore earlier deadline := by
  obtain ⟨again, hagain, hdue, hle⟩ := exists_finish_le hs hsorted hp hr
  have hrational := hdeadline run.2 (hsub (mem_of_mem_backToBack hr)) deadline hrun
  rw [hrational] at hrun ⊢
  obtain ⟨earlier, hearlier, hbefore⟩ := Job.exists_deadline_of_due_le hdue hrun
  exact ⟨again, hagain, _, hearlier, hle, _, _, rfl, rfl, Exact.rational_le_iff.mp hbefore⟩

include hs hd hsub hdeadline hsorted hp in
theorem exists_lateness_noMore {x : Exact}
    (hx : x ∈ latenesses jobs ((backToBack unit speed time order).map (·.1))) :
    ∃ y ∈ latenesses jobs ((backToBack unit speed time other).map (·.1)), Exact.NoMore x y := by
  obtain ⟨run, hr, deadline, hrun, rfl⟩ := (mem_latenesses_iff hd hsub).mp hx
  obtain ⟨again, hagain, earlier, hearlier, hle, hbefore⟩ :=
    exists_deadline_le hs hsub hdeadline hsorted hp hr hrun
  have hother := List.Subset.trans hp.symm.subset hsub
  refine ⟨_, (mem_latenesses_iff hd hother).mpr ⟨again, hagain, earlier, hearlier, rfl⟩, ?_⟩
  rw [finish_eq_of_mem_backToBack hr, finish_eq_of_mem_backToBack hagain] at hle ⊢
  obtain ⟨e, d, rfl, rfl, hed⟩ := hbefore
  exact Exact.sub_noMore hle (Exact.rational_le_iff.mpr hed)

include hs hd hsub hdeadline hsorted hp in
/-- The largest lateness of an order by due date is at most that of any other. -/
theorem exists_maxLateness (hany : ∃ job ∈ order, job.deadline ≠ none) :
    ∃ least most,
      maxLateness? jobs ((backToBack unit speed time order).map (·.1)) = some least ∧
      maxLateness? jobs ((backToBack unit speed time other).map (·.1)) = some most ∧
      Exact.NoMore least most := by
  have hne : latenesses jobs ((backToBack unit speed time order).map (·.1)) ≠ [] := by
    obtain ⟨job, hm, hsome⟩ := hany
    obtain ⟨deadline, hjob⟩ := Option.ne_none_iff_exists'.mp hsome
    rw [← map_snd_backToBack unit speed time order] at hm
    obtain ⟨run, hr, rfl⟩ := List.mem_map.mp hm
    exact List.ne_nil_of_mem ((mem_latenesses_iff hd hsub).mpr ⟨run, hr, deadline, hjob, rfl⟩)
  obtain ⟨least, hm, hleast, -⟩ := exists_largest hne
  obtain ⟨y, hy, a, b, rfl, rfl, hab⟩ :=
    exists_lateness_noMore hs hd hsub hdeadline hsorted hp hm
  obtain ⟨most, hmost, hlargest, hall⟩ := exists_largest (List.ne_nil_of_mem hy)
  have hrational := lateness_eq hd (List.Subset.trans hp.symm.subset hsub) hdeadline hmost
  refine ⟨_, most, hleast, hlargest, a, most.value, rfl, hrational, hab.trans ?_⟩
  rw [← Exact.rational_le_iff, ← hrational]
  exact hall _ hy

include hs hsub hdeadline hsorted hp in
/-- If some order misses no deadline, then one by due date misses none. -/
theorem isLate_eq_false_of_sorted
    (hnone : ∀ again ∈ backToBack unit speed time other, again.2.isLate again.1.finish = false)
    (hr : run ∈ backToBack unit speed time order) : run.2.isLate run.1.finish = false := by
  cases hrun : run.2.deadline with
  | none => rw [Job.isLate, hrun]
  | some deadline =>
    obtain ⟨again, hagain, earlier, hearlier, hle, e, d, rfl, rfl, hed⟩ :=
      exists_deadline_le hs hsub hdeadline hsorted hp hr hrun
    have hmet := hnone again hagain
    rw [Job.isLate, hearlier] at hmet
    rw [Job.isLate, hrun]
    refine decide_eq_false fun hlt => of_decide_eq_false hmet ?_
    exact Quantity.lt_of_le_of_lt (Exact.rational_le_iff.mpr hed)
      (Quantity.lt_of_lt_of_le hlt hle)

end Orders

/-- Without a late job no deadline is reported as missed, if there is any. -/
theorem missedDeadlines_summarize (schedule : Schedule Exact)
    {runs : List (Completion Exact × Job Exact)}
    (h : ∀ run ∈ runs, run.2.isLate run.1.finish = false) :
    (Metrics.summarize schedule runs).missedDeadlines =
      if runs.any (·.2.deadline.isSome) then some 0 else none := by
  have hmissed : (runs.filter (·.2.deadline.isSome)).countP
      (fun run => run.2.isLate run.1.finish) = 0 :=
    List.countP_eq_zero.mpr fun run hr => by simp [h run (List.mem_of_mem_filter hr)]
  simp only [Metrics.summarize, hmissed, List.isEmpty_iff, List.filter_eq_nil_iff, List.any_eq_true]
  split_ifs <;> grind

section OneUnit

variable {pool : Pool Exact} {unit : ExecutionUnit Exact}

/-- Earliest deadline first runs the jobs in turn, by ascending due date. -/
theorem ListScheduling.exists_due_order (valid : pool.check = .ok ())
    (single : pool.units = [unit]) (arrived : ∀ job ∈ pool.jobs, job.arrival ≤ unit.ready) :
    ∃ run, ∃ order : List (Job Exact), edf.allocate pool = .ok run ∧ order.Perm pool.jobs ∧
      (order.Pairwise fun a b => a.due ≤ b.due) ∧
      run.schedule = .ofCompletions (unit.inTurn order) ∧
      run.pool.jobs = pool.jobs.map Job.markCompleted := by
  obtain ⟨run, order, hok, horder, hsorted, hschedule, hjobs⟩ :=
    exists_ranked_order edf.rules valid single arrived
  refine ⟨run, order, hok, horder, ?_, hschedule, hjobs⟩
  exact (List.pairwise_map.mp hsorted).imp fun h =>
    Exact.isLE_totalOrder_iff.mp (isLE_of_precedes h)

theorem exists_missed_inTurn (hv : pool.Valid) (hne : pool.jobs ≠ []) {order : List (Job Exact)}
    (hp : order.Perm pool.jobs)
    (h : ∀ run ∈ backToBack unit.id unit.speed.value unit.ready.value order,
      run.2.isLate run.1.finish = false) :
    ∃ metrics, Metrics.ofCompletions (unit.inTurn order) (pool.jobs.map Job.markCompleted) =
        .ok metrics ∧
      metrics.missedDeadlines =
        if pool.jobs.any (·.deadline.isSome) then some 0 else none := by
  refine ⟨_, Metrics.ofCompletions_backToBack hv.jobs_distinct (fun _ => rfl) hp.subset
    fun hnil => hne (hnil ▸ hp).nil_eq.symm, ?_⟩
  have hmarked : ∀ run ∈ (backToBack unit.id unit.speed.value unit.ready.value order).map
      (fun run => (run.1, run.2.markCompleted)), run.2.isLate run.1.finish = false :=
    List.forall_mem_map.mpr h
  rw [missedDeadlines_summarize _ hmarked, List.any_map, ← hp.any_eq]
  conv_rhs =>
    rw [← map_snd_backToBack unit.id unit.speed.value unit.ready.value order, List.any_map]
  rfl

end OneUnit

/-- No completion is of a job that finishes after its deadline. -/
def Punctual (jobs : List (Job Exact)) (completions : List (Completion Exact)) : Prop :=
  ∀ c ∈ completions, ∀ job ∈ jobs, job.id = c.job → job.isLate c.finish = false

/-- On one unit that is not free before every job has arrived, earliest deadline first completes
each job once, and no order of the jobs has a smaller maximum lateness. If any order misses no
deadline, it misses none. -/
theorem edf_minimises_lateness (pool : Pool Exact) (unit : ExecutionUnit Exact)
    (valid : pool.check = .ok ()) (single : pool.units = [unit])
    (arrived : ∀ job ∈ pool.jobs, job.arrival ≤ unit.ready) :
    ∃ run, ListScheduling.edf.allocate pool = .ok run ∧
      (run.schedule.completions.map (·.job)).Perm (pool.jobs.map (·.id)) ∧
      ∀ order : List (Job Exact), order.Perm pool.jobs →
        ∃ plan, Execution.execute ⟨order.map fun job => (job.id, unit.id)⟩ pool.jobs pool.units =
            .ok plan ∧
          plan.map (·.job) = order.map (·.id) ∧
          ((∃ job ∈ pool.jobs, job.deadline ≠ none) → ∃ least most,
            maxLateness? pool.jobs run.schedule.completions = some least ∧
            maxLateness? pool.jobs plan = some most ∧ Exact.NoMore least most) ∧
          (Punctual pool.jobs plan → pool.jobs ≠ [] → ∃ metrics,
            Metrics.ofSchedule run.schedule run.pool.jobs = .ok metrics ∧
            metrics.missedDeadlines =
              if pool.jobs.any (·.deadline.isSome) then some 0 else none) := by
  have hv := Pool.valid_of_check valid
  have hs := (hv.of_single single).speed_value_pos.le
  have hdeadline : ∀ job ∈ pool.jobs, ∀ deadline ∈ job.deadline,
      deadline = .rational deadline.value := fun job hj deadline hm =>
    Exact.eq_rational_of_isFinite ((hv.jobs_valid job hj).deadline_pos deadline hm).1
  obtain ⟨run, order, hok, horder, hsorted, hschedule, hjobs⟩ :=
    ListScheduling.exists_due_order valid single arrived
  refine ⟨run, hok, ListScheduling.jobs_perm_of_allocateBy valid hok, fun listed hl => ?_⟩
  obtain ⟨other, hother, hexecute⟩ := Execution.exists_order hv single arrived hl
  have hp := horder.trans hother.symm
  refine ⟨_, hexecute, Execution.map_job_of_order hexecute, fun hany => ?_,
    fun hpunctual hne => ?_⟩
  · obtain ⟨job, hm, hsome⟩ := hany
    rw [hschedule]
    exact exists_maxLateness hs hv.jobs_distinct horder.subset hdeadline hsorted hp
      ⟨job, horder.symm.subset hm, hsome⟩
  · rw [hschedule, hjobs]
    refine exists_missed_inTurn hv hne horder fun run hr => ?_
    refine isLate_eq_false_of_sorted hs horder.subset hdeadline hsorted hp (fun again ha => ?_) hr
    exact hpunctual again.1 (List.mem_map_of_mem ha) again.2
      (hother.subset (mem_of_mem_backToBack ha)) (job_eq_of_mem_backToBack ha).symm

/-- Three jobs, of which the longest has no deadline and the last one the earliest. -/
def twoDeadlines : Pool Exact where
  jobs := [⟨0, "whenever", 30, .rational 0, none, 30⟩,
    ⟨1, "later", 20, .rational 1, some (.rational 20), 20⟩,
    ⟨2, "soon", 10, .rational 2, some (.rational 9), 10⟩]
  units := [⟨0, "only", .rational 5, .rational 2⟩]

theorem edf_minimises_lateness_twoDeadlines :
    twoDeadlines.check = .ok () ∧
      ∃ run, ListScheduling.edf.allocate twoDeadlines = .ok run ∧
        (run.schedule.completions.map (·.job)).Perm [0, 1, 2] ∧
        ∃ plan, Execution.execute ⟨[(1, 0), (2, 0), (0, 0)]⟩ twoDeadlines.jobs
            twoDeadlines.units = .ok plan ∧
          plan.map (·.job) = [1, 2, 0] ∧
          (∃ least most,
            maxLateness? twoDeadlines.jobs run.schedule.completions = some least ∧
            maxLateness? twoDeadlines.jobs plan = some most ∧ Exact.NoMore least most) ∧
          ∃ metrics, Metrics.ofSchedule run.schedule run.pool.jobs = .ok metrics ∧
            metrics.missedDeadlines = some 0 := by
  have hcheck : twoDeadlines.check = .ok () :=
    twoDeadlines.check_eq_ok_iff.mpr (by decide +kernel)
  obtain ⟨run, hok, hjobs, hleast⟩ := edf_minimises_lateness twoDeadlines
    ⟨0, "only", .rational 5, .rational 2⟩ hcheck rfl (by decide +kernel)
  obtain ⟨plan, hplan, hrun, hlateness, hmissed⟩ := hleast
    [⟨1, "later", 20, .rational 1, some (.rational 20), 20⟩,
      ⟨2, "soon", 10, .rational 2, some (.rational 9), 10⟩,
      ⟨0, "whenever", 30, .rational 0, none, 30⟩] (by decide +kernel)
  have hpunctual : Punctual twoDeadlines.jobs plan := by
    have hlate : Execution.execute ⟨[(1, 0), (2, 0), (0, 0)]⟩ twoDeadlines.jobs
        twoDeadlines.units = .ok [⟨1, 0, .rational 2, .rational 6⟩,
          ⟨2, 0, .rational 6, .rational 8⟩, ⟨0, 0, .rational 8, .rational 14⟩] := by decide +kernel
    obtain rfl := Except.ok.inj (hplan.symm.trans hlate)
    unfold Punctual
    decide +kernel
  exact ⟨hcheck, run, hok, hjobs, plan, hplan, hrun, hlateness (by decide +kernel),
    hmissed hpunctual (by decide)⟩

end JobAllocation
