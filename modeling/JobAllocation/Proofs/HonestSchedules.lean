import JobAllocation.Proofs.BatchRun
import JobAllocation.Proofs.Binary64Times
import JobAllocation.Proofs.ExactTimes
import JobAllocation.Proofs.HillClimbingRun
import JobAllocation.Proofs.ListRun
import JobAllocation.Verification

/-!
# Schedules without preemption are complete and honest

List scheduling, the batch heuristics and hill climbing commit a prompt plan of all jobs. From that
alone it follows what their schedules can be relied on for: every job runs once, on a unit of the
pool, from its arrival and the first ready time of the unit on, for as long as the estimator says.
The verification of such a schedule has nothing to say but how long a completion seems to have
taken, which is a difference and may be rounded.
-/
namespace JobAllocation

variable {T : Type} [Quantity T]

/-- A completion of a job on a unit that keeps to what is known of both. -/
structure Completion.Honest (c : Completion T) (job : Job T) (unit : ExecutionUnit T) : Prop where
  job_eq : c.job = job.id
  unit_eq : c.unit = unit.id
  arrived : job.arrival ≤ c.start
  free : unit.ready ≤ c.start
  finish_eq : completionTime job unit c.start = .ok c.finish
  forward : c.start ≤ c.finish

/-- What verification can still find in an honest completion: that the difference of its times is
off from the estimated time by more than the tolerance. -/
def Completion.Mistimed (c : Completion T) (job : Job T) (unit : ExecutionUnit T) (tolerance : T)
    (d : Discrepancy T) : Prop :=
  ∃ expected, executionTime job.length unit = .ok expected ∧
    tolerance < Quantity.magnitude (c.span - expected) ∧
    d = .durationMismatch c.job expected c.span

/-- What a plan makes of a unit: it is free again when the last completion on it ends. -/
structure ExecutionUnit.Served (plan : List (Completion T)) (before after : ExecutionUnit T) :
    Prop where
  id_eq : after.id = before.id
  name_eq : after.name = before.name
  speed_eq : after.speed = before.speed
  idle : (∀ c ∈ plan, c.unit ≠ before.id) → after.ready = before.ready
  busy : ∀ last ∈ (plan.filter (·.unit == before.id)).getLast?,
    Quantity.Same after.ready last.finish

/-- An allocation without preemption that runs every job of the pool once, honestly, and leaves the
pool accordingly. Verification finds nothing but durations that are off. -/
structure Allocation.Honest (run : Allocation T) (pool : Pool T) : Prop where
  jobs_perm : (run.schedule.completions.map (·.job)).Perm (pool.jobs.map (·.id))
  completions_honest : ∀ c ∈ run.schedule.completions,
    ∃ job ∈ pool.jobs, ∃ unit ∈ pool.units, c.Honest job unit
  slices_eq : run.schedule.slices = []
  contextSwitches_eq : run.schedule.contextSwitches = 0
  jobs_done : run.pool.jobs = pool.jobs.map Job.markCompleted
  units_served : List.Forall₂ (ExecutionUnit.Served run.schedule.completions) pool.units
    run.pool.units
  verified : ∀ tolerance, ∀ d ∈ Verification.verify run.schedule.completions pool.jobs pool.units
    tolerance, ∃ c ∈ run.schedule.completions, ∃ job ∈ pool.jobs, ∃ unit ∈ pool.units,
      c.Honest job unit ∧ c.Mistimed job unit tolerance d

namespace Verification

variable {jobs : List (Job T)} {units : List (ExecutionUnit T)}

/-- Of an honest completion only the duration can be found wanting. -/
theorem mistimed_of_mem (hj : (jobs.map (·.id)).Nodup) (hu : (units.map (·.id)).Nodup)
    {c : Completion T} {job : Job T} {unit : ExecutionUnit T} (job_mem : job ∈ jobs)
    (unit_mem : unit ∈ units) (h : c.Honest job unit) {tolerance : T} {d : Discrepancy T}
    (hd : d ∈ checkCompletion jobs units tolerance c) : c.Mistimed job unit tolerance d := by
  have hspan : ¬ c.finish < c.start := fun hlt => Quantity.not_le_of_lt hlt h.forward
  have hstart : ¬ c.start < job.arrival := fun hlt => Quantity.not_le_of_lt hlt h.arrived
  rw [checkCompletion, if_neg hspan, h.job_eq, findJob?_of_mem hj job_mem, h.unit_eq,
    findUnit?_of_mem hu unit_mem] at hd
  simp only [if_neg hstart, List.nil_append, checkDuration] at hd
  split at hd
  · simp at hd
  · next expected htime =>
    split at hd
    · next hoff => exact ⟨expected, htime, hoff, List.mem_singleton.mp hd⟩
    · simp at hd

theorem exists_of_mem_checkAll (hj : (jobs.map (·.id)).Nodup) (hu : (units.map (·.id)).Nodup)
    {completions : List (Completion T)} {seen : List JobId}
    (h : ∀ c ∈ completions, ∃ job ∈ jobs, ∃ unit ∈ units, c.Honest job unit)
    (hn : (completions.map (·.job)).Nodup) (hseen : ∀ c ∈ completions, c.job ∉ seen)
    {tolerance : T} {d : Discrepancy T} (hd : d ∈ checkAll jobs units tolerance seen completions) :
    ∃ c ∈ completions, ∃ job ∈ jobs, ∃ unit ∈ units,
      c.Honest job unit ∧ c.Mistimed job unit tolerance d := by
  induction completions generalizing seen with
  | nil => simp [checkAll] at hd
  | cons c rest ih =>
    obtain ⟨⟨job, job_mem, unit, unit_mem, hc⟩, hrest⟩ := List.forall_mem_cons.mp h
    have hlater : ∀ e ∈ rest, e.job ∉ c.job :: seen := notMem_seen hn hseen
    rw [checkAll, if_neg (hseen c List.mem_cons_self), List.nil_append, List.mem_append] at hd
    rcases hd with hd | hd
    · exact ⟨c, List.mem_cons_self, job, job_mem, unit, unit_mem, hc,
        mistimed_of_mem hj hu job_mem unit_mem hc hd⟩
    · obtain ⟨e, he, hmistimed⟩ := ih hrest (List.nodup_cons.mp hn).2 hlater hd
      exact ⟨e, List.mem_cons_of_mem _ he, hmistimed⟩

omit [Quantity T] in
theorem missing_eq_nil {completions : List (Completion T)}
    (h : (completions.map (·.job)).Perm (jobs.map (·.id))) : missing completions jobs = [] := by
  rw [missing, List.map_eq_nil_iff, List.filter_eq_nil_iff]
  intro job hj
  obtain ⟨c, hc, hid⟩ := List.mem_map.mp (h.symm.subset (List.mem_map_of_mem hj))
  have hany : completions.any (·.job == job.id) = true :=
    List.any_eq_true.mpr ⟨c, hc, beq_iff_eq.mpr hid⟩
  simp [hany]

end Verification

/-- The units are those of the pool, free no earlier. -/
def NoEarlier (original units : List (ExecutionUnit T)) : Prop :=
  ∀ unit ∈ units, ∃ first ∈ original, first.id = unit.id ∧ first.speed = unit.speed ∧
    first.ready ≤ unit.ready

theorem NoEarlier.advance {original units : List (ExecutionUnit T)} (h : NoEarlier original units)
    (id : UnitId) (time : T) : NoEarlier original (advanceUnit units id time) := by
  intro unit hu
  obtain ⟨before, hb, hid, hspeed, hready⟩ := exists_of_mem_advanceUnit hu
  obtain ⟨first, hf, hfid, hfspeed, hfready⟩ := h before hb
  refine ⟨first, hf, hfid.trans hid, hfspeed.trans hspeed, ?_⟩
  rw [hready]
  split
  · next hlt => exact Quantity.le_trans hfready (Quantity.le_of_lt hlt.2)
  · exact hfready

variable [LawfulQuantity T]

theorem noEarlier_refl {units : List (ExecutionUnit T)} (h : Working units) :
    NoEarlier units units :=
  fun unit hu => ⟨unit, hu, rfl, rfl, Quantity.le_refl (h.ready_nonneg unit hu)⟩

/-- A job that starts as soon as its unit and its arrival allow starts after both, and its unit is
free by its end. -/
theorem times_of_prompt {ready arrival start work : T} (hready : 0 ≤ ready) (harrival : 0 ≤ arrival)
    (hwork : 0 ≤ work) (hstart : Quantity.Same start (Quantity.larger ready arrival)) :
    arrival ≤ start ∧ ready ≤ start ∧ start ≤ start + work := by
  have hfree := Quantity.le_trans (Quantity.left_le_larger hready arrival) hstart.2
  refine ⟨?_, hfree, LawfulQuantity.le_add (Quantity.le_trans hready hfree) hwork⟩
  exact Quantity.le_trans (Quantity.right_le_larger hready harrival) hstart.2

/-- Work on a working unit takes no negative time. -/
theorem Working.times_of_prompt {units : List (ExecutionUnit T)} (hw : Working units)
    {unit : ExecutionUnit T} (hu : unit ∈ units) {arrival start : T} (harrival : 0 ≤ arrival)
    (hstart : Quantity.Same start (Quantity.larger unit.ready arrival)) (n : Nat) :
    arrival ≤ start ∧ unit.ready ≤ start ∧ start ≤ start + Quantity.ofNat n / unit.speed :=
  JobAllocation.times_of_prompt (hw.ready_nonneg unit hu) harrival (hw.work_nonneg hu n) hstart

theorem Prompt.completions_honest {jobs : List (Job T)} {original units : List (ExecutionUnit T)}
    {plan : List (Completion T)} (hp : Prompt jobs units plan) (hl : NoEarlier original units)
    (hw : Working units) (ha : ∀ job ∈ jobs, 0 ≤ job.arrival) :
    ∀ c ∈ plan, ∃ job ∈ jobs, ∃ unit ∈ original, c.Honest job unit := by
  induction hp with
  | nil => simp
  | @cons units job unit c rest job_mem unit_mem job_eq unit_eq start_same finish_eq _ ih =>
    refine List.forall_mem_cons.mpr ⟨?_, ih (hl.advance _ _) (hw.advance _ _)⟩
    obtain ⟨first, hf, hfid, hfspeed, hfready⟩ := hl unit unit_mem
    have hspeed := hw.speed_pos unit unit_mem
    obtain ⟨harrived, hfree, hforward⟩ :=
      hw.times_of_prompt unit_mem (ha job job_mem) start_same job.length
    refine ⟨job, job_mem, first, hf, job_eq, unit_eq.trans hfid.symm, harrived, ?_, ?_, ?_⟩
    · exact Quantity.le_trans hfready hfree
    · rw [completionTime, executionTime_eq (hfspeed ▸ hspeed), hfspeed, finish_eq]
      rfl
    · rw [finish_eq]
      exact hforward

/-- A completion on a unit that is free by its end is the last one on it until there is another. -/
theorem ExecutionUnit.Served.cons {c : Completion T} {rest : List (Completion T)}
    {before after : ExecutionUnit T} (hready : 0 ≤ before.ready)
    (hle : before.id = c.unit → before.ready ≤ c.finish)
    (h : Served rest (if before.id = c.unit then before.advanceTo c.finish else before) after) :
    Served (c :: rest) before after := by
  by_cases hid : before.id = c.unit
  · rw [if_pos hid] at h
    have hfinish := hle hid
    have hadvanced := before.same_ready_advanceTo hready hfinish
    refine ⟨by simpa using h.id_eq, by simpa using h.name_eq, by simpa using h.speed_eq, ?_, ?_⟩
    · intro hidle
      exact absurd hid.symm (hidle c List.mem_cons_self)
    · intro last hlast
      have hunit : (c.unit == before.id) = true := beq_iff_eq.mpr hid.symm
      rw [List.filter_cons, if_pos hunit, List.getLast?_cons] at hlast
      cases hrest : (rest.filter (·.unit == before.id)).getLast? with
      | none =>
        rw [hrest] at hlast
        obtain rfl : c = last := Option.some.inj hlast
        have hnone := List.filter_eq_nil_iff.mp (List.getLast?_eq_none_iff.mp hrest)
        have hidle := h.idle fun d hd => by simpa using hnone d hd
        rw [hidle]
        exact hadvanced
      | some later =>
        rw [hrest] at hlast
        obtain rfl : later = last := Option.some.inj hlast
        exact h.busy later (by simpa using hrest)
  · rw [if_neg hid] at h
    refine ⟨h.id_eq, h.name_eq, h.speed_eq, ?_, ?_⟩
    · intro hidle
      exact h.idle fun d hd => hidle d (List.mem_cons_of_mem _ hd)
    · rw [List.filter_cons_of_neg (by simpa using Ne.symm hid)]
      exact h.busy

theorem Prompt.units_served {jobs : List (Job T)} {units : List (ExecutionUnit T)}
    {plan : List (Completion T)} (hp : Prompt jobs units plan) (hw : Working units)
    (ha : ∀ job ∈ jobs, 0 ≤ job.arrival) :
    List.Forall₂ (ExecutionUnit.Served plan) units (unitsAfter plan units) := by
  induction hp with
  | @nil units =>
    exact List.forall₂_same.mpr fun unit _ => ⟨rfl, rfl, rfl, fun _ => rfl, by simp⟩
  | @cons units job unit c rest job_mem unit_mem job_eq unit_eq start_same finish_eq _ ih =>
    obtain ⟨-, hfree, hforward⟩ :=
      hw.times_of_prompt unit_mem (ha job job_mem) start_same job.length
    have hfinish : unit.ready ≤ c.finish := finish_eq ▸ Quantity.le_trans hfree hforward
    have hserved := ih (hw.advance _ _)
    rw [← unit_eq] at hserved
    have hpositions := (List.forall₂_and_left _ _).mpr
      ⟨fun before hb => hb, List.forall₂_map_left_iff.mp hserved⟩
    refine hpositions.imp fun before after ⟨hb, h⟩ => ?_
    refine h.cons (hw.ready_nonneg before hb) fun hid => ?_
    have heq : before = unit := List.inj_on_of_nodup_map hw.distinct hb unit_mem
      (hid.trans unit_eq)
    rw [heq]
    exact hfinish

/-- A prompt plan of all jobs is honest. -/
theorem Commits.honest {pool : Pool T} {run : Allocation T} (h : Commits pool run)
    (hv : pool.Valid) : run.Honest pool where
  jobs_perm := h.jobs_perm
  completions_honest := h.prompt.completions_honest (noEarlier_refl hv.working) hv.working
    fun job hj => (hv.jobs_valid job hj).arrival_nonneg
  slices_eq := by rw [h.schedule_eq]; rfl
  contextSwitches_eq := by rw [h.schedule_eq]; rfl
  jobs_done := h.jobs_eq
  units_served := by
    rw [h.units_eq]
    exact h.prompt.units_served hv.working fun job hj => (hv.jobs_valid job hj).arrival_nonneg
  verified tolerance d hd := by
    have hhonest := h.prompt.completions_honest (noEarlier_refl hv.working) hv.working
      fun job hj => (hv.jobs_valid job hj).arrival_nonneg
    rw [Verification.verify, Verification.missing_eq_nil h.jobs_perm, List.append_nil] at hd
    exact Verification.exists_of_mem_checkAll hv.jobs_distinct hv.units_distinct hhonest
      (h.jobs_perm.nodup_iff.mpr hv.jobs_distinct) (fun _ _ => List.not_mem_nil) hd

/-- From rational times on, every start of a plan is rational. -/
theorem Prompt.starts_rational {jobs : List (Job Exact)} {units : List (ExecutionUnit Exact)}
    {plan : List (Completion Exact)} (hp : Prompt jobs units plan) (hw : Working units)
    (hready : ∀ unit ∈ units, ∃ q, unit.ready = .rational q)
    (harrival : ∀ job ∈ jobs, ∃ q, job.arrival = .rational q) :
    ∀ c ∈ plan, ∃ q, c.start = .rational q := by
  induction hp with
  | nil => simp
  | @cons units job unit c rest job_mem unit_mem job_eq unit_eq start_same finish_eq _ ih =>
    have hstart : ∃ q, c.start = .rational q := by
      rw [Exact.eq_of_same start_same,
        Quantity.larger_eq (hw.ready_nonneg unit unit_mem) job.arrival]
      split
      · exact harrival job job_mem
      · exact hready unit unit_mem
    have hfinish : ∃ q, c.finish = .rational q := by
      obtain ⟨q, hq⟩ := hstart
      obtain ⟨d, -, hd⟩ := Exact.exists_work job.length (hw.speed_pos unit unit_mem)
      exact ⟨q + d, by rw [finish_eq, hq, hd]; rfl⟩
    refine List.forall_mem_cons.mpr ⟨hstart, ih (hw.advance _ _) fun later hl => ?_⟩
    obtain ⟨before, hb, -, -, hlater⟩ := exists_of_mem_advanceUnit hl
    rw [hlater]
    split
    · exact hfinish
    · exact hready before hb

/-- Every policy that does not preempt allocates every valid pool, completely and honestly. -/
theorem honest_allocations (pool : Pool Binary64) (valid : pool.check = .ok ()) :
    (∀ engine, ∃ run, ListScheduling.allocateBy engine pool = .ok run ∧ run.Honest pool) ∧
      (∀ heuristic : BatchHeuristic, ∃ run, heuristic.allocate pool = .ok run ∧
        run.Honest pool) ∧
      ∀ policy : HillClimbing, policy.initial.Covers pool.jobs pool.units →
        ∃ run, policy.allocate pool = .ok run ∧ run.Honest pool := by
  have hv := Pool.valid_of_check valid
  refine ⟨?_, ?_, ?_⟩
  · intro engine
    obtain ⟨run, hok, hcommits⟩ := ListScheduling.exists_commits_allocateBy engine valid
    exact ⟨run, hok, hcommits.honest hv⟩
  · intro heuristic
    obtain ⟨run, hok, hcommits⟩ := heuristic.exists_commits_allocate valid
    exact ⟨run, hok, hcommits.honest hv⟩
  · intro policy hcovers
    obtain ⟨run, hok, hcommits⟩ := HillClimbing.exists_commits_allocate valid hcovers
    exact ⟨run, hok, hcommits.honest hv⟩

/-- Two units that are not free at first, and two jobs of which one arrives later. -/
def busyAtFirst : Pool Binary64 where
  jobs := [⟨0, "late", 100, Quantity.ofNat 3, none, 100⟩, ⟨1, "early", 200, 0, none, 200⟩]
  units := [⟨0, "slow", Quantity.ofNat 30, Quantity.ofNat 1⟩,
    ⟨1, "fast", Quantity.ofNat 70, Quantity.ofNat 2⟩]

/-- A search of one move at most, which begins with both jobs on the slow unit. -/
def bothOnSlow : HillClimbing := ⟨.explicit ⟨[(1, 0), (0, 0)]⟩, some 1⟩

theorem honest_allocations_busyAtFirst :
    busyAtFirst.check = .ok () ∧
      bothOnSlow.initial.Covers busyAtFirst.jobs busyAtFirst.units ∧
      (∃ run, ListScheduling.allocateBy [] busyAtFirst = .ok run ∧ run.Honest busyAtFirst) ∧
      (∃ run, BatchHeuristic.minMax.allocate busyAtFirst = .ok run ∧ run.Honest busyAtFirst) ∧
      ∃ run, bothOnSlow.allocate busyAtFirst = .ok run ∧ run.Honest busyAtFirst := by
  have hcheck : busyAtFirst.check = .ok () := busyAtFirst.check_eq_ok_iff.mpr (by decide +kernel)
  have hcovers : bothOnSlow.initial.Covers busyAtFirst.jobs busyAtFirst.units :=
    ⟨.swap 0 1 [], by decide⟩
  have h := honest_allocations busyAtFirst hcheck
  exact ⟨hcheck, hcovers, h.1 [], h.2.1 .minMax, h.2.2 bothOnSlow hcovers⟩

end JobAllocation
