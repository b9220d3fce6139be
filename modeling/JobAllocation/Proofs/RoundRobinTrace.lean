import JobAllocation.Binary64.Basic
import JobAllocation.Proofs.RoundRobinRun
import Mathlib.Data.List.Forall2

/-!
# The trace of round robin

However the slices of different jobs interleave, the slices of one job are its portions in order.
The invariant of the run says so of what has been granted and what still waits together: the slices
of a job so far, followed by the portions of what the queue keeps of it, are the portions of its
length.
-/
namespace JobAllocation.RoundRobin

variable {T : Type}

/-- The instructions of a job that wait in the queue. -/
def left (queue : List (Job T)) (id : JobId) : Nat :=
  ((queue.filter (·.id == id)).map (·.remaining)).sum

theorem left_cons (job : Job T) (rest : List (Job T)) (id : JobId) :
    left (job :: rest) id = (if job.id = id then job.remaining else 0) + left rest id := by
  unfold left
  by_cases h : job.id = id
  · simp [h]
  · simp [h]

theorem left_eq_zero {queue : List (Job T)} {id : JobId} (h : id ∉ queue.map (·.id)) :
    left queue id = 0 := by
  induction queue with
  | nil => rfl
  | cons job rest ih =>
    rw [List.map_cons, List.mem_cons, not_or] at h
    rw [left_cons, if_neg (Ne.symm h.1), ih h.2]

theorem left_requeue (job : Job T) (remaining : Nat) (rest : List (Job T)) (id : JobId) :
    left (requeue job remaining rest) id =
      left rest id + if job.id = id then remaining else 0 := by
  unfold requeue
  by_cases hr : 0 < remaining
  · rw [if_pos hr, left, List.filter_append, List.map_append, List.sum_append, left]
    by_cases h : job.id = id
    · simp [h]
    · simp [h]
  · rw [if_neg hr, Nat.eq_zero_of_not_pos hr, ite_self, Nat.add_zero]

theorem left_reset {jobs : List (Job T)} (hd : (jobs.map (·.id)).Nodup) {job : Job T}
    (hj : job ∈ jobs) : left (jobs.map Job.reset) job.id = job.length := by
  induction jobs with
  | nil => simp at hj
  | cons first rest ih =>
    rw [List.map_cons, List.nodup_cons] at hd
    rw [List.map_cons, left_cons]
    rcases List.mem_cons.mp hj with rfl | hj
    · have hrest : left (rest.map Job.reset) job.id = 0 := by
        apply left_eq_zero
        rw [List.map_map]
        exact hd.1
      rw [hrest]
      simp [Job.reset]
    · have hne : first.reset.id ≠ job.id := fun he => hd.1 (List.mem_map.mpr ⟨job, hj, he.symm⟩)
      rw [if_neg hne, Nat.zero_add, ih hd.2 hj]

theorem map_id_requeue (job : Job T) (remaining : Nat) (rest : List (Job T)) :
    (requeue job remaining rest).map (·.id) =
      rest.map (·.id) ++ if 0 < remaining then [job.id] else [] := by
  unfold requeue
  split
  · rw [List.map_append, List.map_singleton]
  · rw [List.append_nil]

/-- The slice at which a schedule completes a job. The start is that of the job's first slice. -/
structure Reports (schedule : Schedule T) (c : Completion T) (slice : Slice T) : Prop where
  job : c.job = slice.job
  unit : c.unit = slice.unit
  finish : c.finish = slice.finish
  start : schedule.firstStart? slice.job = some c.start

/-- What holds between turns of the schedule and of the jobs that still wait. -/
structure Serving {quantum : Nat} (hq : 0 < quantum) (jobs queue : List (Job T))
    (schedule : Schedule T) : Prop where
  waiting : ∀ job ∈ queue, 0 < job.remaining
  portions : ∀ job ∈ jobs, (schedule.slicesOf job.id).map Slice.portion ++
    Portion.all hq (left queue job.id) = Portion.all hq job.length
  known : ∀ slice ∈ schedule.slices, slice.job ∈ jobs.map (·.id)
  steps : schedule.slices.map (·.step) = List.range' 1 schedule.slices.length
  length : schedule.slices.length +
      (queue.map fun job => (Portion.all hq job.remaining).length).sum =
    (jobs.map fun job => (Portion.all hq job.length).length).sum
  switches : schedule.contextSwitches + schedule.completions.length = schedule.slices.length
  reported : List.Forall₂ (Reports schedule) schedule.completions
    (schedule.slices.filter (·.outcome == .completed))
  settled : (schedule.completions.map (·.job) ++ queue.map (·.id)).Perm (jobs.map (·.id))

theorem serving_start [Quantity T] {quantum : Nat} (hq : 0 < quantum) {pool : Pool T}
    (hv : pool.Valid) : Serving hq pool.jobs pool.freshJobs .empty where
  waiting job hj := by
    obtain ⟨source, hs, rfl⟩ := Pool.exists_of_mem_freshJobs hj
    exact (hv.jobs_valid source hs).length_pos
  portions job hj := by
    rw [Pool.freshJobs, left_reset hv.jobs_distinct hj]
    rfl
  known := by simp [Schedule.empty]
  steps := rfl
  length := by simp [Pool.freshJobs, Schedule.empty, Job.reset, Function.comp_def]
  switches := rfl
  reported := .nil
  settled := .of_eq pool.map_id_freshJobs

theorem Reports.record {schedule : Schedule T} {c : Completion T} {earlier : Slice T}
    (h : Reports schedule c earlier) (slice : Slice T) :
    Reports (record schedule slice) c earlier where
  job := h.job
  unit := h.unit
  finish := h.finish
  start := by rw [firstStart?_record, h.start, Option.some_or]

namespace Serving

variable {quantum : Nat} {hq : 0 < quantum} {jobs queue rest : List (Job T)} {job : Job T}
  {schedule : Schedule T} {slice : Slice T}

/-- A job is in the queue once, and only if nothing has completed it. -/
theorem queue_distinct (h : Serving hq jobs queue schedule)
    (hd : (jobs.map (·.id)).Nodup) : (queue.map (·.id)).Nodup :=
  (List.nodup_append.mp (h.settled.nodup_iff.mpr hd)).2.1

theorem head_mem (h : Serving hq jobs (job :: rest) schedule) : job.id ∈ jobs.map (·.id) :=
  h.settled.subset (List.mem_append_right _ List.mem_cons_self)

theorem switches_turn (h : Serving hq jobs queue schedule) :
    (record schedule slice).contextSwitches + (record schedule slice).completions.length =
      (record schedule slice).slices.length := by
  have hbefore := h.switches
  cases houtcome : slice.outcome with
  | preempted =>
    rw [record_of_preempted houtcome]
    simp only [Schedule.addSlice, List.length_append, List.length_singleton]
    omega
  | completed =>
    rw [record_of_completed houtcome]
    simp only [Schedule.addCompletion, Schedule.addSlice, List.length_append,
      List.length_singleton]
    omega

theorem reported_turn (h : Serving hq jobs queue schedule) :
    List.Forall₂ (Reports (record schedule slice)) (record schedule slice).completions
      ((record schedule slice).slices.filter (·.outcome == .completed)) := by
  have hbefore := h.reported.imp fun _ _ hr => hr.record slice
  rw [record_slices, List.filter_append]
  cases houtcome : slice.outcome with
  | preempted =>
    rw [record_of_preempted houtcome] at hbefore ⊢
    simpa [houtcome, Schedule.addSlice] using hbefore
  | completed =>
    have hlast : Reports (record schedule slice)
        { job := slice.job
          unit := slice.unit
          start := (schedule.firstStart? slice.job).getD slice.start
          finish := slice.finish } slice := by
      refine ⟨rfl, rfl, rfl, ?_⟩
      rw [firstStart?_record, if_pos rfl]
      cases schedule.firstStart? slice.job <;> rfl
    have hdone : [slice].filter (·.outcome == .completed) = [slice] := by simp [houtcome]
    rw [hdone]
    rw [record_of_completed houtcome] at hbefore hlast ⊢
    exact List.rel_append hbefore (.cons hlast .nil)

section Turn

variable [Quantity T] {units : List (ExecutionUnit T)} {unit : ExecutionUnit T}

theorem portions_turn (h : Serving hq jobs (job :: rest) schedule) (hd : (jobs.map (·.id)).Nodup)
    (ht : Turn quantum job units schedule unit slice) {source : Job T} (hs : source ∈ jobs) :
    ((record schedule slice).slicesOf source.id).map Slice.portion ++
      Portion.all hq (left (requeue job slice.remaining rest) source.id) =
        Portion.all hq source.length := by
  have hdistinct := h.queue_distinct hd
  have hbefore := h.portions source hs
  rw [List.map_cons, List.nodup_cons] at hdistinct
  rw [left_cons] at hbefore
  rw [slicesOf_record, left_requeue, ht.slice_job]
  -- The portion of the turn moves from what waits to what has been granted.
  by_cases heq : job.id = source.id
  · have hrest : left rest source.id = 0 := left_eq_zero (heq ▸ hdistinct.1)
    rw [if_pos heq, hrest, Nat.add_zero,
      Portion.all_of_pos hq (h.waiting job List.mem_cons_self)] at hbefore
    rw [if_pos heq, if_pos heq, hrest, Nat.zero_add, List.map_append, List.map_singleton,
      ht.slice_portion, ht.slice_remaining, List.append_assoc, List.singleton_append]
    exact hbefore
  · rw [if_neg heq, Nat.zero_add] at hbefore
    rw [if_neg heq, if_neg heq, Nat.add_zero, List.append_nil]
    exact hbefore

theorem length_turn (h : Serving hq jobs (job :: rest) schedule)
    (ht : Turn quantum job units schedule unit slice) :
    (record schedule slice).slices.length +
      ((requeue job slice.remaining rest).map fun job =>
        (Portion.all hq job.remaining).length).sum =
      (jobs.map fun job => (Portion.all hq job.length).length).sum := by
  have hbefore := h.length
  rw [List.map_cons, List.sum_cons, Portion.all_of_pos hq (h.waiting job List.mem_cons_self),
    List.length_cons, ← ht.slice_remaining] at hbefore
  rw [record_slices, List.length_append, List.length_singleton, requeue]
  split
  · rw [List.map_append, List.sum_append, List.map_singleton, List.sum_singleton]
    dsimp only
    omega
  · next hr =>
    rw [Nat.eq_zero_of_not_pos hr, Portion.all_zero, List.length_nil] at hbefore
    omega

/-- A turn that leaves work keeps the job waiting, a turn that leaves none completes it. -/
theorem settled_turn (h : Serving hq jobs (job :: rest) schedule)
    (ht : Turn quantum job units schedule unit slice) :
    ((record schedule slice).completions.map (·.job) ++
      (requeue job slice.remaining rest).map (·.id)).Perm (jobs.map (·.id)) := by
  refine List.Perm.trans ?_ h.settled
  have houtcome : slice.outcome = if 0 < slice.remaining then .preempted else .completed := by
    rw [ht.slice_eq]
    rfl
  rw [map_id_requeue, List.map_cons]
  by_cases hr : 0 < slice.remaining
  · rw [if_pos hr] at houtcome ⊢
    rw [record_of_preempted houtcome]
    exact List.perm_append_comm.append_left _
  · rw [if_neg hr] at houtcome ⊢
    rw [record_of_completed houtcome, List.append_nil, Schedule.addCompletion, List.map_append,
      List.map_singleton, ht.slice_job, List.append_assoc]
    exact .refl _

theorem turn (h : Serving hq jobs (job :: rest) schedule) (hd : (jobs.map (·.id)).Nodup)
    (ht : Turn quantum job units schedule unit slice) :
    Serving hq jobs (requeue job slice.remaining rest) (record schedule slice) where
  waiting queued hm := by
    rcases mem_requeue hm with hm | ⟨hr, rfl⟩
    · exact h.waiting queued (List.mem_cons_of_mem _ hm)
    · exact hr
  portions _ hs := h.portions_turn hd ht hs
  known earlier hm := by
    rw [record_slices, List.mem_append, List.mem_singleton] at hm
    rcases hm with hm | rfl
    · exact h.known earlier hm
    · rw [ht.slice_job]
      exact h.head_mem
  steps := by
    rw [record_slices, List.map_append, h.steps, List.map_singleton, ht.slice_step,
      List.length_append, List.length_singleton, List.range'_1_concat, Nat.add_comm 1]
  length := h.length_turn ht
  switches := h.switches_turn
  reported := h.reported_turn
  settled := h.settled_turn ht

end Turn

theorem map_portion (h : Serving hq jobs [] schedule) (hj : job ∈ jobs) :
    (schedule.slicesOf job.id).map Slice.portion = Portion.all hq job.length := by
  have hportions := h.portions job hj
  rwa [show left [] job.id = 0 from rfl, Portion.all_zero, List.append_nil] at hportions

/-- The slices of a job make up its work. -/
theorem sum_work (h : Serving hq jobs [] schedule) (hj : job ∈ jobs) :
    ((schedule.slicesOf job.id).map (·.work)).sum = job.length := by
  have hsum := congrArg (fun ps => (ps.map Portion.work).sum) (h.map_portion hj)
  rw [← Portion.sum_work_all hq job.length, ← hsum, List.map_map]
  rfl

theorem portion_mem (h : Serving hq jobs [] schedule) (hs : slice ∈ schedule.slices) :
    ∃ job ∈ jobs, slice.portion ∈ Portion.all hq job.length := by
  obtain ⟨job, hj, hid⟩ := List.mem_map.mp (h.known slice hs)
  refine ⟨job, hj, ?_⟩
  rw [← h.map_portion hj]
  exact List.mem_map_of_mem (List.mem_filter.mpr ⟨hs, beq_iff_eq.mpr hid.symm⟩)

/-- Every turn does some work. -/
theorem work_pos (h : Serving hq jobs [] schedule) (hs : slice ∈ schedule.slices) :
    0 < slice.work := by
  obtain ⟨job, -, hportion⟩ := h.portion_mem hs
  exact (Portion.work_bounds_of_mem_all hq hportion).1

theorem exists_last_slice (h : Serving hq jobs [] schedule) (hj : job ∈ jobs)
    (hl : 0 < job.length) :
    ∃ front last, schedule.slicesOf job.id = front ++ [last] ∧ last.outcome = .completed ∧
      ∀ slice ∈ front, slice.work = quantum ∧ slice.outcome = .preempted := by
  obtain ⟨front, last, hall, hlast, hfront⟩ := Portion.exists_last hq hl
  have hmap := h.map_portion hj
  rw [hall, List.map_eq_append_iff] at hmap
  obtain ⟨slices, tail, hslices, rfl, htail⟩ := hmap
  obtain ⟨slice, rfl, rfl⟩ := List.map_eq_singleton_iff.mp htail
  exact ⟨slices, slice, hslices, hlast, fun s hs => hfront s.portion (List.mem_map_of_mem hs)⟩

theorem work_left (h : Serving hq jobs [] schedule) (hj : job ∈ jobs) {front back : List (Slice T)}
    (hs : schedule.slicesOf job.id = front ++ slice :: back) :
    (front.map (·.work)).sum + slice.work + slice.remaining = job.length := by
  have hmap := h.map_portion hj
  rw [hs, List.map_append, List.map_cons] at hmap
  have hwork := Portion.work_add_remaining hq hmap.symm
  rwa [List.map_map] at hwork

theorem completions_perm (h : Serving hq jobs [] schedule) :
    (schedule.completions.map (·.job)).Perm (jobs.map (·.id)) := by
  have hsettled := h.settled
  rwa [List.map_nil, List.append_nil] at hsettled

theorem exists_reported (h : Serving hq jobs queue schedule) {c : Completion T}
    (hc : c ∈ schedule.completions) :
    ∃ slice ∈ schedule.slices, slice.outcome = .completed ∧ Reports schedule c slice := by
  obtain ⟨slice, hs, hreports⟩ := exists_of_mem_forall₂ h.reported.flip hc
  obtain ⟨hm, hdone⟩ := List.mem_filter.mp hs
  exact ⟨slice, hm, eq_of_beq hdone, hreports⟩

theorem exists_completion (h : Serving hq jobs queue schedule) (hs : slice ∈ schedule.slices)
    (hdone : slice.outcome = .completed) : ∃ c ∈ schedule.completions, Reports schedule c slice :=
  exists_of_mem_forall₂ h.reported (List.mem_filter.mpr ⟨hs, beq_iff_eq.mpr hdone⟩)

/-- Nothing is granted to a job after the slice that completes it. -/
theorem job_ne_of_completed (h : Serving hq jobs [] schedule) (hl : ∀ job ∈ jobs, 0 < job.length)
    {front back : List (Slice T)} (hs : schedule.slices = front ++ slice :: back)
    (hdone : slice.outcome = .completed) : ∀ later ∈ back, later.job ≠ slice.job := by
  intro later hm heq
  have hmem : slice ∈ schedule.slices := by
    rw [hs]
    exact List.mem_append_right _ List.mem_cons_self
  obtain ⟨job, hj, hid⟩ := List.mem_map.mp (h.known slice hmem)
  obtain ⟨init, last, hslices, -, hinit⟩ := h.exists_last_slice hj (hl job hj)
  have hback : later ∈ back.filter (·.job == job.id) :=
    List.mem_filter.mpr ⟨hm, beq_iff_eq.mpr (heq.trans hid.symm)⟩
  have hkept : (slice :: back).filter (·.job == job.id) =
      slice :: back.filter (·.job == job.id) := List.filter_cons_of_pos (beq_iff_eq.mpr hid.symm)
  rw [Schedule.slicesOf, hs, List.filter_append, hkept] at hslices
  -- With a slice of the job after it, this one would be among those that were preempted.
  rcases List.eq_nil_or_concat (back.filter (·.job == job.id)) with hnil | ⟨rest, final, hrest⟩
  · rw [hnil] at hback
    simp at hback
  · rw [hrest, List.concat_eq_append, ← List.cons_append, ← List.append_assoc] at hslices
    have hpreempted := (hinit slice ((List.append_inj' hslices rfl).1 ▸
      List.mem_append_right _ List.mem_cons_self)).2
    rw [hdone] at hpreempted
    contradiction

/-- A schedule that completes every job leaves none with work to do. -/
theorem settle_reset (h : Serving hq jobs [] schedule) :
    schedule.settle (jobs.map Job.reset) = jobs.map Job.markCompleted := by
  rw [Schedule.settle, List.map_map]
  refine List.map_congr_left fun job hj => ?_
  obtain ⟨c, hc, hid⟩ := List.mem_map.mp
    (h.completions_perm.symm.subset (List.mem_map_of_mem hj))
  have hany : schedule.completions.any (·.job == job.reset.id) = true :=
    List.any_eq_true.mpr ⟨c, hc, beq_iff_eq.mpr hid⟩
  rw [Function.comp_apply, if_pos hany]
  rfl

end Serving

variable [Quantity T]

/-- The run of an allocation, with what is known at its end. -/
theorem exists_served {quantum : Nat} (hq : 0 < quantum) {pool : Pool T}
    (h : pool.check = .ok ()) :
    ∃ after, allocate quantum pool = .ok after ∧
      after.pool.jobs = after.schedule.settle pool.freshJobs ∧
      Serving hq pool.jobs [] after.schedule := by
  have hv := Pool.valid_of_check h
  exact exists_allocate_of_invariant hq h (P := fun queue _ schedule =>
    Serving hq pool.jobs queue schedule) (fun ht hs => hs.turn hv.jobs_distinct ht)
    (serving_start hq hv)

/-- The trace of an allocation accounts for the work of every job, and its completions and counts
for the trace. -/
structure TraceIntegrity (quantum : Nat) (pool : Pool T) (after : Allocation T) : Prop where
  known : ∀ slice ∈ after.schedule.slices, slice.job ∈ pool.jobs.map (·.id)
  sum_work : ∀ job ∈ pool.jobs,
    ((after.schedule.slicesOf job.id).map (·.work)).sum = job.length
  work_bounds : ∀ slice ∈ after.schedule.slices, 1 ≤ slice.work ∧ slice.work ≤ quantum
  work_left : ∀ job ∈ pool.jobs, ∀ front slice back,
    after.schedule.slicesOf job.id = front ++ slice :: back →
      (front.map (·.work)).sum + slice.work + slice.remaining = job.length
  completed_iff : ∀ slice ∈ after.schedule.slices,
    slice.outcome = .completed ↔ slice.remaining = 0
  last_completes : ∀ job ∈ pool.jobs, ∃ front last,
    after.schedule.slicesOf job.id = front ++ [last] ∧ last.outcome = .completed ∧
      ∀ slice ∈ front, slice.work = quantum ∧ slice.outcome = .preempted
  steps : after.schedule.slices.map (·.step) = List.range' 1 after.schedule.slices.length
  slices_length : after.schedule.slices.length =
    (pool.jobs.map fun job => (job.length + quantum - 1) / quantum).sum
  switches : after.schedule.contextSwitches + pool.jobs.length = after.schedule.slices.length
  reported : List.Forall₂ (Reports after.schedule) after.schedule.completions
    (after.schedule.slices.filter (·.outcome == .completed))
  one_each : (after.schedule.completions.map (·.job)).Perm (pool.jobs.map (·.id))
  jobs_done : after.pool.jobs = pool.jobs.map Job.markCompleted

theorem allocate_trace_integrity {quantum : Nat} (hq : 0 < quantum) (pool : Pool T)
    (valid : pool.check = .ok ()) :
    ∃ after, allocate quantum pool = .ok after ∧ TraceIntegrity quantum pool after := by
  obtain ⟨after, hok, hjobs, hserved⟩ := exists_served hq valid
  have hv := Pool.valid_of_check valid
  refine ⟨after, hok, ?_⟩
  constructor
  · exact hserved.known
  · intro job hj
    have hsum := congrArg (fun ps => (ps.map Portion.work).sum) (hserved.map_portion hj)
    rw [← Portion.sum_work_all hq job.length, ← hsum, List.map_map]
    rfl
  · intro slice hs
    obtain ⟨job, -, hm⟩ := hserved.portion_mem hs
    exact Portion.work_bounds_of_mem_all hq hm
  · intro job hj front slice back hs
    exact hserved.work_left hj hs
  · intro slice hs
    obtain ⟨job, -, hm⟩ := hserved.portion_mem hs
    exact Portion.completed_iff_of_mem_all hq hm
  · intro job hj
    exact hserved.exists_last_slice hj (hv.jobs_valid job hj).length_pos
  · exact hserved.steps
  · have hlength := hserved.length
    simp only [Portion.length_all] at hlength
    rwa [List.map_nil, List.sum_nil, Nat.add_zero] at hlength
  · have hcount := hserved.completions_perm.length_eq
    rw [List.length_map, List.length_map] at hcount
    rw [← hcount]
    exact hserved.switches
  · exact hserved.reported
  · exact hserved.completions_perm
  · rw [hjobs]
    exact hserved.settle_reset

/-- A job of two and a half quanta and a job of less than one, on one unit. -/
def longAndShort : Pool Binary64 where
  jobs := [⟨0, "long", 250, 0, none, 250⟩, ⟨1, "short", 40, 0, none, 40⟩]
  units := [⟨0, "only", Quantity.ofNat 100, 0⟩]

theorem longAndShort_check : longAndShort.check = .ok () :=
  longAndShort.check_eq_ok_iff.mpr (by decide +kernel)

theorem allocate_trace_integrity_longAndShort :
    longAndShort.check = .ok () ∧ ∃ after, allocate 100 longAndShort = .ok after ∧
      TraceIntegrity 100 longAndShort after ∧ after.schedule.slices.length = 4 ∧
      after.schedule.contextSwitches = 2 := by
  obtain ⟨after, hok, htrace⟩ :=
    allocate_trace_integrity (by decide : 0 < 100) longAndShort longAndShort_check
  have hlength : after.schedule.slices.length = 4 := htrace.slices_length
  have hswitches : after.schedule.contextSwitches + 2 = 4 := htrace.switches.trans hlength
  exact ⟨longAndShort_check, after, hok, htrace, hlength, by omega⟩

end JobAllocation.RoundRobin
