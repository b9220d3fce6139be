import JobAllocation.Proofs.FinishSums
import JobAllocation.Proofs.PlannedTimes
import JobAllocation.Proofs.PriorityOrder
import JobAllocation.Proofs.RoundRobinOverlap

/-!
# A quantum that no job exceeds

Round robin serves its queue in input order, and first come, first served picks among the jobs that
have arrived by its clock. Both make prompt plans, and where the input lists the jobs as they arrive
both take them in that order. On one unit that says everything: a prompt plan is determined by the
order of its jobs and their units, so the two loops need not be followed side by side.
-/
namespace JobAllocation

section Determined

variable {T : Type} [Quantity T] [StrictQuantity T] {jobs : List (Job T)}

/-- Two prompt plans that take the same jobs on the same units in the same order agree in their
times, and leave the units alike. -/
theorem Prompt.agrees {units : List (ExecutionUnit T)} {plan other : List (Completion T)}
    (hp : Prompt jobs units plan) (ho : Prompt jobs units other) (hw : Working units)
    (hd : (jobs.map (·.id)).Nodup) (hv : ∀ job ∈ jobs, job.Valid)
    (h : plan.map (fun c => (c.job, c.unit)) = other.map fun c => (c.job, c.unit)) :
    List.Forall₂ Completion.Agrees plan other ∧ unitsAfter plan units = unitsAfter other units := by
  induction hp generalizing other with
  | nil =>
    obtain rfl := List.map_eq_nil_iff.mp h.symm
    exact ⟨.nil, rfl⟩
  | @cons units job unit c rest job_mem unit_mem job_eq unit_eq start_same finish_eq _ ih =>
    cases ho with
    | nil => cases h
    | @cons _ again on d later again_mem on_mem again_eq on_eq same_start same_finish tail =>
      obtain ⟨hentry, hrest⟩ := List.cons.inj h
      obtain ⟨hjob, hunit⟩ := Prod.mk.inj hentry
      obtain rfl : again = job := List.inj_on_of_nodup_map hd again_mem job_mem
        (again_eq.symm.trans (hjob.symm.trans job_eq))
      obtain rfl : on = unit := List.inj_on_of_nodup_map hw.distinct on_mem unit_mem
        (on_eq.symm.trans (hunit.symm.trans unit_eq))
      have harrival := (hv again again_mem).arrival_nonneg
      have hwork := hw.work_pos on_mem (hv again again_mem).length_pos
      have hstart : Quantity.Same c.start d.start := start_same.trans same_start.symm
      have hc := Quantity.le_trans (hw.ready_nonneg on on_mem)
        (hw.times_of_prompt on_mem harrival start_same again.length).2.1
      have hpos := StrictQuantity.pos_add hc hwork
      have hsame := hstart.add hc (Quantity.le_trans hc hstart.1) (Quantity.le_of_lt hwork)
      rw [← finish_eq] at hpos
      rw [← finish_eq, ← same_finish] at hsame
      -- Times that agree are one if they are positive, as the end of some work is.
      have hfinish : c.finish = d.finish := OrderedQuantity.eq_of_same hsame hpos
      rw [hfinish] at ih
      obtain ⟨hagrees, hunits⟩ := ih tail (hw.advance _ _) hrest
      refine ⟨.cons ⟨hjob, hunit, hstart, hsame⟩ hagrees, ?_⟩
      change unitsAfter rest (advanceUnit units c.unit c.finish) =
        unitsAfter later (advanceUnit units d.unit d.finish)
      rw [unit_eq, on_eq, hfinish]
      exact hunits

/-- On one unit the order of the jobs is all that a prompt plan can choose. -/
theorem Prompt.agrees_of_single {unit : ExecutionUnit T} {plan other : List (Completion T)}
    (hp : Prompt jobs [unit] plan) (ho : Prompt jobs [unit] other) (hw : Working [unit])
    (hd : (jobs.map (·.id)).Nodup) (hv : ∀ job ∈ jobs, job.Valid)
    (h : plan.map (·.job) = other.map (·.job)) :
    List.Forall₂ Completion.Agrees plan other ∧
      unitsAfter plan [unit] = unitsAfter other [unit] := by
  have ha : ∀ job ∈ jobs, 0 ≤ job.arrival := fun job hj => (hv job hj).arrival_nonneg
  have hentries {plan : List (Completion T)} (hp : Prompt jobs [unit] plan) :
      plan.map (fun c => (c.job, c.unit)) = (plan.map (·.job)).map fun job => (job, unit.id) := by
    rw [List.map_map]
    refine List.map_congr_left fun c hc => ?_
    obtain ⟨-, only, ho, hunit⟩ := hp.exists_unit hw ha c hc
    rw [hunit, List.mem_singleton.mp ho]
    rfl
  exact hp.agrees ho hw hd hv (by rw [hentries hp, hentries ho, h])

end Determined

namespace ListScheduling

variable {T : Type} [Quantity T]

/-- The job arrived before the other, or at the same time with a lower number. -/
def ArrivesFirst (a b : Job T) : Prop :=
  Quantity.totalOrder a.arrival b.arrival = .lt ∨
    Quantity.totalOrder a.arrival b.arrival = .eq ∧ a.id < b.id

instance (a b : Job T) : Decidable (ArrivesFirst a b) := inferInstanceAs (Decidable (_ ∨ _))

theorem ArrivesFirst.asymm [OrderedQuantity T] {a b : Job T} (h : ArrivesFirst a b) :
    ¬ ArrivesFirst b a := by
  have hswap : Quantity.totalOrder b.arrival a.arrival =
      (Quantity.totalOrder a.arrival b.arrival).swap := Std.OrientedCmp.eq_swap
  rw [ArrivesFirst, hswap]
  rcases h with h | ⟨h, hid⟩
  · simp [h]
  · simp [h, Nat.le_of_lt hid]

variable [StrictQuantity T]

/-- The jobs that are listed as they arrive are served as they are listed. -/
theorem exists_sorted_allocate {pool : Pool T} (h : pool.check = .ok ())
    (sorted : pool.jobs.Pairwise ArrivesFirst) :
    ∃ run, fcfs.allocate pool = .ok run ∧ Commits pool run ∧
      run.schedule.completions.map (·.job) = pool.jobs.map (·.id) := by
  have hv := Pool.valid_of_check h
  have hids : (pool.freshJobs.map (·.id)).Nodup := pool.map_id_freshJobs ▸ hv.jobs_distinct
  obtain ⟨run, hok, hcommits⟩ := exists_commits_allocateBy fcfs.rules.engine h
  obtain ⟨again, hagain, hdecisions⟩ := exists_decisions_allocateBy fcfs.rules.engine h
  obtain rfl := Except.ok.inj (hok.symm.trans hagain)
  refine ⟨run, hok, hcommits, ?_⟩
  have hplan := hdecisions.comesFirst hids (.refl _) hv.fresh_arrival_nonneg
  let first (x y : JobId) : Prop := ∀ a ∈ pool.freshJobs, a.id = x → ∀ b ∈ pool.freshJobs,
    b.id = y → ArrivesFirst a b
  have hlisted : (pool.jobs.map (·.id)).Pairwise first := by
    refine List.pairwise_map.mpr (sorted.imp_of_mem fun {a b} ha hb hab x hx hxa y hy hyb => ?_)
    obtain rfl : x = a.reset := List.inj_on_of_nodup_map hids hx (List.mem_map_of_mem ha) hxa
    obtain rfl : y = b.reset := List.inj_on_of_nodup_map hids hy (List.mem_map_of_mem hb) hyb
    exact hab
  refine hcommits.jobs_perm.eq_of_pairwise (fun x y hx hy hxy hyx => ?_)
    (List.pairwise_map.mpr hplan) hlisted
  obtain ⟨a, ha, rfl⟩ := List.mem_map.mp (hcommits.jobs_perm.subset hx)
  obtain ⟨b, hb, rfl⟩ := List.mem_map.mp hy
  have hab := hxy a.reset (List.mem_map_of_mem ha) rfl b.reset (List.mem_map_of_mem hb) rfl
  have hba := hyx b.reset (List.mem_map_of_mem hb) rfl a.reset (List.mem_map_of_mem ha) rfl
  exact absurd hba hab.asymm

end ListScheduling

namespace RoundRobin

variable {T : Type}

/-- The slice is the whole run of a job: it starts and ends with the completion and does all of the
work. -/
structure Covers (jobs : List (Job T)) (slice : Slice T) (c : Completion T) : Prop where
  job : slice.job = c.job
  unit : slice.unit = c.unit
  start : slice.start = c.start
  finish : slice.finish = c.finish
  work : ∀ job ∈ jobs, job.id = c.job → slice.work = job.length
  remaining : slice.remaining = 0
  outcome : slice.outcome = .completed

variable {quantum : Nat} {hq : 0 < quantum} {jobs : List (Job T)} {schedule : Schedule T}

theorem portion_all_of_le {left : Nat} (hl : 0 < left) (hle : left ≤ quantum) :
    Portion.all hq left = [⟨left, 0, .completed⟩] := by
  rw [Portion.all_of_pos hq hl, Portion.next, Nat.min_eq_right hle, Nat.sub_self, Portion.all_zero]
  rfl

/-- A job that one quantum covers has one slice, which is all of it. -/
theorem Serving.exists_slicesOf_eq (h : Serving hq jobs [] schedule) {job : Job T} (hj : job ∈ jobs)
    (hl : 0 < job.length) (hle : job.length ≤ quantum) :
    ∃ slice, schedule.slicesOf job.id = [slice] ∧
      slice.portion = ⟨job.length, 0, .completed⟩ := by
  have hmap := h.map_portion hj
  rw [portion_all_of_le hl hle] at hmap
  exact List.map_eq_singleton_iff.mp hmap

/-- Where no job exceeds the quantum, every slice is the whole run of its job. -/
theorem Serving.covers (h : Serving hq jobs [] schedule) (hd : (jobs.map (·.id)).Nodup)
    (hl : ∀ job ∈ jobs, 0 < job.length) (hle : ∀ job ∈ jobs, job.length ≤ quantum) :
    List.Forall₂ (Covers jobs) schedule.slices schedule.completions := by
  have hwhole : ∀ slice ∈ schedule.slices, ∃ job ∈ jobs, slice.job = job.id ∧
      schedule.slicesOf job.id = [slice] ∧ slice.portion = ⟨job.length, 0, .completed⟩ := by
    intro slice hs
    obtain ⟨job, hj, hid⟩ := List.mem_map.mp (h.known slice hs)
    obtain ⟨only, honly, hportion⟩ := h.exists_slicesOf_eq hj (hl job hj) (hle job hj)
    have hmem : slice ∈ schedule.slicesOf job.id :=
      List.mem_filter.mpr ⟨hs, beq_iff_eq.mpr hid.symm⟩
    rw [honly, List.mem_singleton] at hmem
    exact ⟨job, hj, hid.symm, hmem ▸ honly, hmem ▸ hportion⟩
  have hall : schedule.slices.filter (·.outcome == .completed) = schedule.slices := by
    refine List.filter_eq_self.mpr fun slice hs => ?_
    obtain ⟨job, -, -, -, hportion⟩ := hwhole slice hs
    exact beq_iff_eq.mpr (congrArg Portion.outcome hportion)
  have hreported := h.reported.flip
  rw [hall] at hreported
  refine ((List.forall₂_and_left _ _).mpr ⟨hwhole, hreported⟩).imp ?_
  rintro slice c ⟨⟨job, hj, hjob, honly, hportion⟩, hreports⟩
  refine ⟨hreports.job.symm, hreports.unit.symm, ?_, hreports.finish.symm, fun other ho hid => ?_,
    congrArg Portion.remaining hportion, congrArg Portion.outcome hportion⟩
  · have hstart := hreports.start
    rw [hjob, Schedule.firstStart?, ← List.head?_filter, ← Schedule.slicesOf, honly] at hstart
    exact Option.some.inj hstart
  · obtain rfl := List.inj_on_of_nodup_map hd ho hj (hid.trans (hreports.job.trans hjob))
    exact congrArg Portion.work hportion

theorem Serving.contextSwitches_eq_zero (h : Serving hq jobs [] schedule)
    (hcovers : List.Forall₂ (Covers jobs) schedule.slices schedule.completions) :
    schedule.contextSwitches = 0 := by
  have hlength := hcovers.length_eq
  have hswitches := h.switches
  omega

/-- Slices that are completions leave the units as the completions do. -/
theorem unitsAfter_eq_of_covers [Quantity T] {slices : List (Slice T)} {plan : List (Completion T)}
    (h : List.Forall₂ (Covers jobs) slices plan) (units : List (ExecutionUnit T)) :
    unitsAfter units slices = JobAllocation.unitsAfter plan units := by
  induction h generalizing units with
  | nil => rfl
  | @cons slice c slices plan hcovers _ ih =>
    change unitsAfter (advanceUnit units slice.unit slice.finish) slices =
      JobAllocation.unitsAfter plan (advanceUnit units c.unit c.finish)
    rw [hcovers.unit, hcovers.finish, ih]

end RoundRobin

/-- A quantum that no job exceeds makes round robin on one unit serve as first come, first served
does, if the jobs are listed as they arrive: the completions agree one by one, the pool is left the
same, nothing is preempted, and every job has one slice, which is its completion. Zero is refused as
a quantum; where there are jobs, their lengths rule it out. -/
theorem large_quantum_serves_as_listed (pool : Pool Binary64) (valid : pool.check = .ok ())
    {unit : ExecutionUnit Binary64} (single : pool.units = [unit])
    (sorted : pool.jobs.Pairwise ListScheduling.ArrivesFirst) (quantum : Nat)
    (positive : pool.jobs = [] → 0 < quantum) (large : ∀ job ∈ pool.jobs, job.length ≤ quantum) :
    ∃ sliced listed, RoundRobin.allocate quantum pool = .ok sliced ∧
      ListScheduling.fcfs.allocate pool = .ok listed ∧
      List.Forall₂ Completion.Agrees sliced.schedule.completions listed.schedule.completions ∧
      sliced.pool = listed.pool ∧ sliced.schedule.contextSwitches = 0 ∧
      sliced.schedule.completions.map (·.job) = pool.jobs.map (·.id) ∧
      List.Forall₂ (RoundRobin.Covers pool.jobs) sliced.schedule.slices
        sliced.schedule.completions := by
  have hv := Pool.valid_of_check valid
  have hlength : ∀ job ∈ pool.jobs, 0 < job.length :=
    fun job hj => (hv.jobs_valid job hj).length_pos
  have hq : 0 < quantum := by
    rcases eq_or_ne pool.jobs [] with hnil | hne
    · exact positive hnil
    · obtain ⟨job, hj⟩ := List.exists_mem_of_ne_nil _ hne
      exact Nat.lt_of_lt_of_le (hlength job hj) (large job hj)
  obtain ⟨sliced, hsliced, hs, hp⟩ := RoundRobin.exists_placed hq valid
  obtain ⟨again, hagain, hprompt, horder⟩ := RoundRobin.exists_prompt_allocate hq valid large
  obtain rfl := Except.ok.inj (hsliced.symm.trans hagain)
  obtain ⟨served, hserved, hjobs, -⟩ := RoundRobin.exists_served hq valid
  obtain rfl := Except.ok.inj (hsliced.symm.trans hserved)
  obtain ⟨listed, hlisted, hcommits, hsorted⟩ := ListScheduling.exists_sorted_allocate valid sorted
  have hcovers := hs.covers hv.jobs_distinct hlength large
  have hplan := hcommits.prompt
  have hunits := hcommits.units_eq
  have hw := hv.working
  rw [single] at hprompt hplan hunits hw
  obtain ⟨hagrees, hafter⟩ := hprompt.agrees_of_single hplan hw hv.jobs_distinct hv.jobs_valid
    (horder.trans hsorted.symm)
  refine ⟨sliced, listed, hsliced, hlisted, hagrees, ?_, hs.contextSwitches_eq_zero hcovers, horder,
    hcovers⟩
  have hdone : sliced.pool.jobs = listed.pool.jobs := by
    rw [hjobs, settle_freshJobs hs.completions_perm, hcommits.jobs_eq]
  have hfree : sliced.pool.units = listed.pool.units := by
    rw [hp.units_eq, single, RoundRobin.unitsAfter_eq_of_covers hcovers, hafter, hunits]
  exact congrArg₂ Pool.mk hdone hfree

/-- Two jobs that arrive together before the unit is free, and one that arrives after both are
done. -/
def tiesAndGap : Pool Binary64 where
  jobs := [⟨3, "first", 100, 0, none, 100⟩, ⟨5, "tied", 200, 0, none, 200⟩,
    ⟨1, "late", 50, Quantity.ofNat 10, none, 50⟩]
  units := [⟨0, "only", Quantity.ofNat 100, Quantity.ofNat 1⟩]

theorem large_quantum_serves_as_listed_tiesAndGap :
    tiesAndGap.check = .ok () ∧ tiesAndGap.jobs.Pairwise ListScheduling.ArrivesFirst ∧
      (∀ job ∈ tiesAndGap.jobs, job.length ≤ 200) ∧
      ∃ sliced listed, RoundRobin.allocate 200 tiesAndGap = .ok sliced ∧
        ListScheduling.fcfs.allocate tiesAndGap = .ok listed ∧
        List.Forall₂ Completion.Agrees sliced.schedule.completions listed.schedule.completions ∧
        sliced.pool = listed.pool ∧ sliced.schedule.contextSwitches = 0 ∧
        sliced.schedule.completions.map (·.job) = [3, 5, 1] ∧
        List.Forall₂ (RoundRobin.Covers tiesAndGap.jobs) sliced.schedule.slices
          sliced.schedule.completions := by
  have hcheck : tiesAndGap.check = .ok () := tiesAndGap.check_eq_ok_iff.mpr (by decide +kernel)
  have hsorted : tiesAndGap.jobs.Pairwise ListScheduling.ArrivesFirst := by decide +kernel
  have hlarge : ∀ job ∈ tiesAndGap.jobs, job.length ≤ 200 := by decide
  exact ⟨hcheck, hsorted, hlarge, large_quantum_serves_as_listed tiesAndGap hcheck rfl hsorted 200
    (fun hnil => absurd hnil (List.cons_ne_nil _ _)) hlarge⟩

end JobAllocation
