import JobAllocation.Proofs.TimeAccounting

/-!
# The times of a run

Whatever the policy, a run does pieces of work in turn, each as soon as its unit is free and its job
has arrived, and for as long as the unit takes for it: whole jobs, or with preemption slices of
them. Everything that a schedule and its metrics say of times goes back to these pieces.
-/
namespace JobAllocation

variable {T : Type} [Quantity T]

/-- Bookings for work that can be done in turn, and the units after it. -/
inductive Works (jobs : List (Job T)) :
    List (ExecutionUnit T) → List (Booking T) → List (ExecutionUnit T) → Prop where
  | nil {units : List (ExecutionUnit T)} : Works jobs units [] units
  | cons {units later : List (ExecutionUnit T)} {job : Job T} {unit : ExecutionUnit T}
      {b : Booking T} {rest : List (Booking T)} {work : Nat} (job_mem : job ∈ jobs)
      (unit_mem : unit ∈ units) (unit_eq : b.unit = unit.id) (work_pos : 0 < work)
      (work_le : work ≤ job.length)
      (start_same : Quantity.Same b.start (Quantity.larger unit.ready job.arrival))
      (finish_eq : b.finish = b.start + Quantity.ofNat work / unit.speed)
      (tail : Works jobs (advanceUnit units unit.id b.finish) rest later) :
      Works jobs units (b :: rest) later

namespace Works

variable {jobs : List (Job T)} {units between later : List (ExecutionUnit T)}
  {bookings rest : List (Booking T)}

theorem append (h : Works jobs units bookings between) (hrest : Works jobs between rest later) :
    Works jobs units (bookings ++ rest) later := by
  induction h with
  | nil => exact hrest
  | cons job_mem unit_mem unit_eq work_pos work_le start_same finish_eq _ ih =>
    exact .cons job_mem unit_mem unit_eq work_pos work_le start_same finish_eq (ih hrest)

theorem books [LawfulQuantity T] (h : Works jobs units bookings later) (hw : Working units)
    (ha : ∀ job ∈ jobs, 0 ≤ job.arrival) : Books units bookings later := by
  induction h with
  | nil => exact .nil
  | @cons units later job unit b rest work job_mem unit_mem unit_eq _ _ start_same finish_eq _ ih =>
    obtain ⟨-, hfree, hforward⟩ := hw.times_of_prompt unit_mem (ha job job_mem) start_same work
    exact .cons hw unit_mem unit_eq hfree (finish_eq ▸ hforward) (ih (hw.advance _ _))

theorem working [LawfulQuantity T] (h : Works jobs units bookings later) (hw : Working units) :
    Working later := by
  induction h with
  | nil => exact hw
  | cons job_mem unit_mem unit_eq work_pos work_le start_same finish_eq _ ih =>
    exact ih (hw.advance _ _)

end Works

/-- A completion from the start of one booking to the finish of another, of a job that has
arrived. -/
structure Completion.Covers (pool : Pool T) (bookings : List (Booking T)) (c : Completion T) :
    Prop where
  starts : ∃ b ∈ bookings, b.start = c.start
  finishes : ∃ b ∈ bookings, b.finish = c.finish
  forward : c.start ≤ c.finish
  arrived : ∃ job ∈ pool.jobs, job.id = c.job ∧ job.arrival ≤ c.start

/-- What the times in a schedule have to do with what was booked. -/
structure Timetable (pool : Pool T) (bookings : List (Booking T)) (run : Allocation T) :
    Prop where
  works : Works pool.jobs pool.units bookings run.pool.units
  completions : ∀ c ∈ run.schedule.completions, c.Covers pool bookings
  slices : ∀ slice ∈ run.schedule.slices, slice.booking ∈ bookings
  executions : ∀ c ∈ run.schedule.completions, ∃ own ⊆ bookings,
    (run.schedule.executionTime? c.job).getD c.span = Quantity.sum (own.map Booking.duration)
  occupied_eq : run.schedule.occupied = bookings.map fun b => (b.unit, b.duration)

omit [Quantity T] in
theorem Schedule.isPreemptive_of_mem {schedule : Schedule T} {slice : Slice T}
    (h : slice ∈ schedule.slices) : schedule.isPreemptive = true := by
  simp [isPreemptive, List.ne_nil_of_mem h]

theorem Prompt.works {jobs : List (Job T)} {units : List (ExecutionUnit T)}
    {plan : List (Completion T)} (hp : Prompt jobs units plan) (hj : ∀ job ∈ jobs, job.Valid) :
    Works jobs units (plan.map Completion.booking) (unitsAfter plan units) := by
  induction hp with
  | nil => exact .nil
  | @cons units job unit c rest job_mem unit_mem job_eq unit_eq start_same finish_eq _ ih =>
    rw [← unit_eq] at ih
    exact .cons job_mem unit_mem unit_eq (hj job job_mem).length_pos (Nat.le_refl _) start_same
      finish_eq (unit_eq ▸ ih)

theorem Commits.timetable [LawfulQuantity T] {pool : Pool T} {run : Allocation T}
    (h : Commits pool run) (hv : pool.Valid) :
    Timetable pool (run.schedule.completions.map Completion.booking) run where
  works := h.units_eq ▸ h.prompt.works hv.jobs_valid
  completions c hc := by
    have hmem : c.booking ∈ run.schedule.completions.map Completion.booking :=
      List.mem_map_of_mem hc
    obtain ⟨job, hj, unit, -, hhonest⟩ := (h.honest hv).completions_honest c hc
    exact ⟨⟨c.booking, hmem, rfl⟩, ⟨c.booking, hmem, rfl⟩, hhonest.forward,
      ⟨job, hj, hhonest.job_eq.symm, hhonest.arrived⟩⟩
  slices := by
    rw [h.schedule_eq]
    exact nofun
  executions c hc := by
    refine ⟨[c.booking], List.cons_subset.mpr ⟨List.mem_map_of_mem hc, List.nil_subset _⟩, ?_⟩
    rw [h.executionTime?_eq hv hc]
    rfl
  occupied_eq := by
    rw [Schedule.occupied, h.isPreemptive_eq, List.map_map]
    rfl

namespace RoundRobin

variable {pool : Pool T} {quantum : Nat} {hq : 0 < quantum}

omit [Quantity T] in
theorem Serving.work_le {schedule : Schedule T} (h : Serving hq pool.jobs [] schedule)
    {slice : Slice T} (hs : slice ∈ schedule.slices) {job : Job T} (hj : job ∈ pool.jobs)
    (hid : slice.job = job.id) : slice.work ≤ job.length := by
  have hmem : slice ∈ schedule.slicesOf job.id :=
    List.mem_filter.mpr ⟨hs, beq_iff_eq.mpr hid⟩
  rw [← h.sum_work hj]
  exact List.le_sum_of_mem (List.mem_map_of_mem hmem)

omit [Quantity T] in
/-- Where nothing was granted nothing was completed. -/
theorem Serving.completions_eq_nil {schedule : Schedule T}
    (h : Serving hq pool.jobs [] schedule) (hnil : schedule.slices = []) :
    schedule.completions = [] := by
  refine List.eq_nil_iff_forall_not_mem.mpr fun c hc => ?_
  obtain ⟨slice, hs, -⟩ := h.exists_reported hc
  rw [hnil] at hs
  cases hs

variable [LawfulQuantity T]

theorem Placed.works {slices : List (Slice T)} (h : Placed pool slices) (hv : pool.Valid)
    (hpos : ∀ slice ∈ slices, 0 < slice.work)
    (hle : ∀ slice ∈ slices, ∀ job ∈ pool.jobs, slice.job = job.id → slice.work ≤ job.length) :
    Works pool.jobs pool.units (slices.map Slice.booking) (unitsAfter pool.units slices) := by
  induction slices using List.reverseRecOn with
  | nil => exact .nil
  | append_singleton slices slice ih =>
    obtain ⟨hplaced, job, unit, hg⟩ := placed_concat.mp h
    have hbefore := ih hplaced (fun s hs => hpos s (List.mem_append_left _ hs))
      (fun s hs => hle s (List.mem_append_left _ hs))
    have hlast : slice ∈ slices ++ [slice] := List.mem_append_right _ List.mem_cons_self
    have hstart : Quantity.Same slice.start (Quantity.larger unit.ready job.arrival) :=
      hg.start_eq ▸ Quantity.Same.refl (hg.start_le_finish hv).1
    rw [List.map_append, List.map_singleton, unitsAfter_concat, hg.unit_eq]
    exact hbefore.append (.cons hg.job_mem hg.unit_mem hg.unit_eq (hpos slice hlast)
      (hle slice hlast job hg.job_mem hg.job_eq) hstart hg.finish_eq .nil)

variable {run : Allocation T}

theorem timetable (hs : Serving hq pool.jobs [] run.schedule)
    (hp : Placing pool [] run.pool.units run.schedule) (hv : pool.Valid) :
    Timetable pool (run.schedule.slices.map Slice.booking) run where
  works := by
    rw [hp.units_eq]
    exact hp.placed.works hv (fun _ hm => hs.work_pos hm)
      fun _ hm _ hj hid => hs.work_le hm hj hid
  completions c hc := by
    obtain ⟨last, hm, -, hreports⟩ := hs.exists_reported hc
    obtain ⟨⟨first, hfirst, hstart⟩, hearliest⟩ := startsFirst hs hp.placed hv hc
    have hown : last ∈ run.schedule.slicesOf c.job :=
      List.mem_filter.mpr ⟨hm, beq_iff_eq.mpr hreports.job.symm⟩
    obtain ⟨hfm, hfjob⟩ := List.mem_filter.mp hfirst
    obtain ⟨front, job, unit, hg⟩ := hp.placed.of_mem hfm
    have hready := (hg.ready_le_start hv).1
    have hforward := (hp.placed.start_le_finish hv hm).2
    refine ⟨⟨first.booking, List.mem_map_of_mem hfm, hstart⟩,
      ⟨last.booking, List.mem_map_of_mem hm, hreports.finish.symm⟩, ?_, job, hg.job_mem, ?_, ?_⟩
    · rw [hreports.finish]
      exact Quantity.le_trans (hearliest last hown) hforward
    · exact hg.job_eq.symm.trans (eq_of_beq hfjob)
    · rw [← hstart, hg.start_eq]
      exact Quantity.right_le_larger hready (hv.jobs_valid job hg.job_mem).arrival_nonneg
  slices slice hm := List.mem_map_of_mem hm
  executions c hc := by
    obtain ⟨last, hm, -, hreports⟩ := hs.exists_reported hc
    have hown : last ∈ run.schedule.slicesOf c.job :=
      List.mem_filter.mpr ⟨hm, beq_iff_eq.mpr hreports.job.symm⟩
    refine ⟨(run.schedule.slicesOf c.job).map Slice.booking, ?_, ?_⟩
    · exact List.map_subset _ (List.filter_subset_self _)
    · rw [Schedule.executionTime?, if_pos (Schedule.isPreemptive_of_mem hm), List.map_map]
      cases h : run.schedule.slicesOf c.job with
      | nil => simp [h] at hown
      | cons first rest => rfl
  occupied_eq := by
    cases hslices : run.schedule.slices with
    | nil =>
      rw [Schedule.occupied, hs.completions_eq_nil hslices, hslices]
      split <;> rfl
    | cons slice rest =>
      have hm : slice ∈ run.schedule.slices := hslices ▸ List.mem_cons_self
      rw [← hslices, Schedule.occupied, if_pos (Schedule.isPreemptive_of_mem hm), List.map_map]
      rfl

end RoundRobin

/-- Every run keeps to a timetable. -/
theorem Call.timetable [LawfulQuantity T] {call : Call T} {pool : Pool T} {run : Allocation T}
    (h : call.allocate pool = .ok run) :
    Timetable pool (call.bookings run.schedule) run := by
  obtain ⟨hcheck, hcall⟩ := check_and_feasible h
  have hv := Pool.valid_of_check hcheck
  rcases Classical.em call.Preempts with ⟨quantum, rfl⟩ | hpreempts
  · obtain ⟨_, hok, hs, hp⟩ := RoundRobin.exists_placed hcall hcheck
    obtain rfl := Except.ok.inj (h.symm.trans hok)
    exact RoundRobin.timetable hs hp hv
  · obtain ⟨_, hok, hcommits⟩ := exists_commits hcheck hcall hpreempts
    obtain rfl := Except.ok.inj (h.symm.trans hok)
    rw [bookings_of_not_preempts hpreempts]
    exact hcommits.timetable hv

end JobAllocation
