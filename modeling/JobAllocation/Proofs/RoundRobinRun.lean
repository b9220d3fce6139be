import JobAllocation.RoundRobin
import JobAllocation.Proofs.Portions
import JobAllocation.Proofs.WorkingUnits

/-!
# Runs of round robin

On working units every turn succeeds and every run ends. What a turn preserves holds at the end of
the run, when the queue is empty.
-/
namespace JobAllocation.RoundRobin

variable {T : Type}

theorem mem_requeue {job queued : Job T} {remaining : Nat} {rest : List (Job T)}
    (h : queued ∈ requeue job remaining rest) :
    queued ∈ rest ∨ 0 < remaining ∧ queued = { job with remaining } := by
  unfold requeue at h
  split at h
  · next hr =>
    rcases List.mem_append.mp h with h | h
    · exact .inl h
    · exact .inr ⟨hr, List.mem_singleton.mp h⟩
  · exact .inl h

theorem firstStart?_addSlice (schedule : Schedule T) (slice : Slice T) (id : JobId) :
    (schedule.addSlice slice).firstStart? id =
      (schedule.firstStart? id).or (if slice.job = id then some slice.start else none) := by
  unfold Schedule.firstStart? Schedule.addSlice
  rw [List.find?_append, Option.map_or]
  by_cases h : slice.job = id
  · simp [h]
  · simp [h]

theorem record_of_preempted {schedule : Schedule T} {slice : Slice T}
    (h : slice.outcome = .preempted) :
    record schedule slice =
      { schedule.addSlice slice with contextSwitches := schedule.contextSwitches + 1 } := by
  rw [record, h]
  rfl

theorem record_of_completed {schedule : Schedule T} {slice : Slice T}
    (h : slice.outcome = .completed) :
    record schedule slice =
      (schedule.addSlice slice).addCompletion
        { job := slice.job
          unit := slice.unit
          start := (schedule.firstStart? slice.job).getD slice.start
          finish := slice.finish } := by
  rw [record, h]

@[simp] theorem record_slices (schedule : Schedule T) (slice : Slice T) :
    (record schedule slice).slices = schedule.slices ++ [slice] := by
  cases h : slice.outcome with
  | preempted => rw [record_of_preempted h, Schedule.addSlice]
  | completed => rw [record_of_completed h, Schedule.addCompletion, Schedule.addSlice]

theorem firstStart?_record (schedule : Schedule T) (slice : Slice T) (id : JobId) :
    (record schedule slice).firstStart? id =
      (schedule.firstStart? id).or (if slice.job = id then some slice.start else none) := by
  rw [← firstStart?_addSlice, Schedule.firstStart?, record_slices]
  rfl

theorem slicesOf_record (schedule : Schedule T) (slice : Slice T) (id : JobId) :
    (record schedule slice).slicesOf id =
      schedule.slicesOf id ++ if slice.job = id then [slice] else [] := by
  rw [Schedule.slicesOf, record_slices, List.filter_append, Schedule.slicesOf]
  by_cases h : slice.job = id
  · simp [h]
  · simp [h]

variable [Quantity T]

/-- One turn of a job on a unit that has a speed. -/
def sliceOn (quantum step : Nat) (job : Job T) (unit : ExecutionUnit T) : Slice T where
  step
  job := job.id
  unit := unit.id
  start := Quantity.larger unit.ready job.arrival
  finish := Quantity.larger unit.ready job.arrival +
    Quantity.ofNat (min quantum job.remaining) / unit.speed
  work := min quantum job.remaining
  remaining := job.remaining - min quantum job.remaining
  outcome := if 0 < job.remaining - min quantum job.remaining then .preempted else .completed

theorem turn_eq {unit : ExecutionUnit T} (h : 0 < unit.speed) (quantum step : Nat) (job : Job T) :
    turn quantum step job unit = .ok (sliceOn quantum step job unit) := by
  simp [turn, executionTime_eq h, sliceOn, bind, Except.bind, pure, Except.pure]

/-- What the queue, the units and the schedule are after a turn of the job at the head. -/
structure Turn (quantum : Nat) (job : Job T) (units : List (ExecutionUnit T))
    (schedule : Schedule T) (unit : ExecutionUnit T) (slice : Slice T) : Prop where
  working : Working units
  first : firstFree? units = some unit
  slice_eq : slice = sliceOn quantum (schedule.slices.length + 1) job unit

namespace Turn

variable {quantum : Nat} {job : Job T} {units : List (ExecutionUnit T)} {schedule : Schedule T}
  {unit : ExecutionUnit T} {slice : Slice T}

theorem unit_mem (h : Turn quantum job units schedule unit slice) : unit ∈ units :=
  Selection.mem_of_best? h.first

theorem slice_job (h : Turn quantum job units schedule unit slice) : slice.job = job.id := by
  rw [h.slice_eq, sliceOn]

theorem slice_step (h : Turn quantum job units schedule unit slice) :
    slice.step = schedule.slices.length + 1 := by
  rw [h.slice_eq, sliceOn]

theorem slice_portion (h : Turn quantum job units schedule unit slice) :
    slice.portion = Portion.next quantum job.remaining := by
  rw [h.slice_eq]
  rfl

theorem slice_remaining (h : Turn quantum job units schedule unit slice) :
    slice.remaining = (Portion.next quantum job.remaining).remaining :=
  congrArg Portion.remaining h.slice_portion

end Turn

theorem run_nil {quantum : Nat} (hq : 0 < quantum) (units : List (ExecutionUnit T))
    (schedule : Schedule T) : run quantum hq [] units schedule = .ok (schedule, units) := by
  rw [run]

theorem exists_turn {quantum : Nat} (hq : 0 < quantum) {units : List (ExecutionUnit T)}
    (hw : Working units) (job : Job T) (rest : List (Job T)) (schedule : Schedule T) :
    ∃ unit slice, Turn quantum job units schedule unit slice ∧
      run quantum hq (job :: rest) units schedule =
        run quantum hq (requeue job slice.remaining rest)
          (advanceUnit units unit.id slice.finish) (record schedule slice) := by
  obtain ⟨unit, hu, hfirst⟩ := exists_firstFree? hw
  refine ⟨unit, _, ⟨hw, hfirst, rfl⟩, ?_⟩
  rw [run, hfirst]
  simp only [turn_eq (hw.speed_pos unit hu), bind, Except.bind]
  rfl

/-- A run ends, and what every turn preserves holds of its end. -/
theorem exists_run_of_invariant {quantum : Nat} (hq : 0 < quantum)
    {P : List (Job T) → List (ExecutionUnit T) → Schedule T → Prop}
    (step : ∀ {job rest units schedule unit slice}, Turn quantum job units schedule unit slice →
      P (job :: rest) units schedule →
      P (requeue job slice.remaining rest) (advanceUnit units unit.id slice.finish)
        (record schedule slice))
    {queue : List (Job T)} {units : List (ExecutionUnit T)} {schedule : Schedule T}
    (hw : Working units) (h : P queue units schedule) :
    ∃ last later, run quantum hq queue units schedule = .ok (last, later) ∧ P [] later last := by
  induction hn : weight queue using Nat.strongRecOn generalizing queue units schedule with
  | ind n ih =>
    subst hn
    cases queue with
    | nil => exact ⟨schedule, units, run_nil hq units schedule, h⟩
    | cons job rest =>
      obtain ⟨unit, slice, hturn, hrun⟩ := exists_turn hq hw job rest schedule
      have hlt : weight (requeue job slice.remaining rest) < weight (job :: rest) := by
        rw [hturn.slice_eq]
        exact weight_requeue_lt hq job rest
      obtain ⟨last, later, hrest, hlast⟩ := ih _ hlt (hw.advance _ _) (step hturn h) rfl
      exact ⟨last, later, hrun.trans hrest, hlast⟩

theorem allocate_of_run {quantum : Nat} (hq : 0 < quantum) {pool : Pool T}
    (h : pool.check = .ok ()) {schedule : Schedule T} {units : List (ExecutionUnit T)}
    (hrun : run quantum hq pool.freshJobs pool.units .empty = .ok (schedule, units)) :
    allocate quantum pool = .ok ⟨schedule, schedule.settle pool.freshJobs, units⟩ := by
  simp only [allocate, dif_pos hq, h, hrun, bind, Except.bind, pure, Except.pure]

/-- An allocation of a pool that passes the check succeeds, and what every turn preserves holds of
its end. -/
theorem exists_allocate_of_invariant {quantum : Nat} (hq : 0 < quantum) {pool : Pool T}
    (h : pool.check = .ok ())
    {P : List (Job T) → List (ExecutionUnit T) → Schedule T → Prop}
    (step : ∀ {job rest units schedule unit slice}, Turn quantum job units schedule unit slice →
      P (job :: rest) units schedule →
      P (requeue job slice.remaining rest) (advanceUnit units unit.id slice.finish)
        (record schedule slice))
    (start : P pool.freshJobs pool.units .empty) :
    ∃ after, allocate quantum pool = .ok after ∧
      after.pool.jobs = after.schedule.settle pool.freshJobs ∧
      P [] after.pool.units after.schedule := by
  obtain ⟨schedule, units, hrun, hend⟩ :=
    exists_run_of_invariant hq step (Pool.valid_of_check h).working start
  exact ⟨_, allocate_of_run hq h hrun, rfl, hend⟩

end JobAllocation.RoundRobin
