import JobAllocation.Proofs.Binary64Times
import JobAllocation.Proofs.RoundRobinPlacement
import JobAllocation.Proofs.RoundRobinTrace

/-!
# When the slices of a job overlap

A job goes back to the queue as soon as its slice is granted, and its next slice may be granted on
another unit that is free before the first slice has ended. The job then runs on both at once, and
may even end there before it ends here. The results below say exactly when neither happens.
-/
namespace JobAllocation.RoundRobin

variable {T : Type} [Quantity T]

/-- No slice of a job starts before an earlier one of the same job has ended. -/
def Sequential (slices : List (Slice T)) : Prop :=
  slices.Pairwise fun a b => a.job = b.job → a.finish ≤ b.start

instance (slices : List (Slice T)) : Decidable (Sequential slices) :=
  inferInstanceAs (Decidable (slices.Pairwise _))

/-- When a job is granted a further slice, no unit can start it before the end of its previous
slice. -/
def AwaitsPrevious (pool : Pool T) (front : List (Slice T)) (slice : Slice T) : Prop :=
  ∀ previous ∈ (front.filter (·.job == slice.job)).getLast?, ∀ job ∈ pool.jobs,
    slice.job = job.id → ∀ unit ∈ unitsAfter pool.units front,
      previous.finish ≤ Quantity.larger unit.ready job.arrival

theorem sequential_concat {slices : List (Slice T)} {slice : Slice T} :
    Sequential (slices ++ [slice]) ↔
      Sequential slices ∧ ∀ a ∈ slices, a.job = slice.job → a.finish ≤ slice.start := by
  unfold Sequential
  rw [List.pairwise_append]
  constructor
  · rintro ⟨h, -, hlast⟩
    exact ⟨h, fun a ha => hlast a ha slice List.mem_cons_self⟩
  · rintro ⟨h, hlast⟩
    refine ⟨h, List.pairwise_singleton _ _, fun a ha b hb => ?_⟩
    obtain rfl := List.mem_singleton.mp hb
    exact hlast a ha

variable [LawfulQuantity T] {pool : Pool T} {slices : List (Slice T)}

/-- Of the earlier slices of the job only the previous one has to be awaited, if those before it
were awaited in their turn. -/
theorem Granted.awaitsPrevious_iff {slice : Slice T} {job : Job T} {unit : ExecutionUnit T}
    (hg : Granted pool slices slice job unit) (hp : Placed pool slices) (hv : pool.Valid)
    (hs : Sequential slices) :
    AwaitsPrevious pool slices slice ↔
      ∀ a ∈ slices, a.job = slice.job → a.finish ≤ slice.start := by
  constructor
  · intro h a ha hjob
    have hmem : a ∈ slices.filter (·.job == slice.job) :=
      List.mem_filter.mpr ⟨ha, beq_iff_eq.mpr hjob⟩
    rcases List.eq_nil_or_concat (slices.filter (·.job == slice.job)) with
      hnil | ⟨rest, previous, hsplit⟩
    · rw [hnil] at hmem
      simp at hmem
    rw [List.concat_eq_append] at hsplit
    have hlast : previous ∈ (slices.filter (·.job == slice.job)).getLast? := by
      rw [hsplit, List.getLast?_concat]
      rfl
    have hend : previous.finish ≤ slice.start := by
      rw [hg.start_eq]
      exact h previous hlast job hg.job_mem hg.job_eq unit hg.unit_mem
    rw [hsplit, List.mem_append, List.mem_singleton] at hmem
    -- A slice before the previous one ended before the previous one started.
    rcases hmem with hrest | rfl
    · obtain ⟨hprevious, hid⟩ := List.mem_filter.mp (List.mem_of_mem_getLast? hlast)
      have hfiltered : Sequential (rest ++ [previous]) := hsplit ▸ hs.filter _
      have hbefore := (sequential_concat.mp hfiltered).2 a hrest (hjob.trans (eq_of_beq hid).symm)
      have hspan := (hp.start_le_finish hv hprevious).2
      exact Quantity.le_trans hbefore (Quantity.le_trans hspan hend)
    · exact hend
  · intro h previous hlast other ho hid unit hu
    obtain rfl := hg.job_unique hv ho hid
    obtain ⟨hprevious, hjob⟩ := List.mem_filter.mp (List.mem_of_mem_getLast? hlast)
    exact Quantity.le_trans (h previous hprevious (eq_of_beq hjob)) (hg.start_le hv hu)

theorem Placed.sequential_iff (hp : Placed pool slices) (hv : pool.Valid) :
    Sequential slices ↔ AtEach (AwaitsPrevious pool) slices := by
  induction slices using List.reverseRecOn with
  | nil => exact ⟨fun _ => atEach_nil _, fun _ => .nil⟩
  | append_singleton slices slice ih =>
    obtain ⟨hplaced, job, unit, hg⟩ := placed_concat.mp hp
    rw [sequential_concat, atEach_concat, ← ih hplaced]
    constructor
    · rintro ⟨hs, hlast⟩
      exact ⟨hs, (hg.awaitsPrevious_iff hplaced hv hs).mpr hlast⟩
    · rintro ⟨hs, hlast⟩
      exact ⟨hs, (hg.awaitsPrevious_iff hplaced hv hs).mp hlast⟩

/-- One unit is busy with the previous slice for as long as it takes. -/
theorem Placed.sequential_of_single (hp : Placed pool slices) (hv : pool.Valid)
    (hone : pool.units.length = 1) : Sequential slices := by
  induction slices using List.reverseRecOn with
  | nil => exact .nil
  | append_singleton slices slice ih =>
    obtain ⟨hplaced, job, unit, hg⟩ := placed_concat.mp hp
    refine sequential_concat.mpr ⟨ih hplaced, fun a ha _ => ?_⟩
    obtain ⟨front, first, granted, hfirst⟩ := hplaced.of_mem ha
    have hid : unit.id = a.unit := by
      rw [hfirst.unit_eq]
      exact id_eq_of_single hone hg.unit_mem hfirst.unit_mem
    exact Quantity.le_trans (hplaced.finish_le_ready hv ha hg.unit_mem hid)
      (hg.ready_le_start hv).2

omit [LawfulQuantity T] in
/-- The run of an allocation, with what is known of its slices and of their times. -/
theorem exists_placed {quantum : Nat} (hq : 0 < quantum) (h : pool.check = .ok ()) :
    ∃ after, allocate quantum pool = .ok after ∧
      Serving hq pool.jobs [] after.schedule ∧ Placing pool [] after.pool.units after.schedule := by
  have hv := Pool.valid_of_check h
  obtain ⟨after, hok, -, hend⟩ := exists_allocate_of_invariant hq h
    (P := fun queue units schedule =>
      Serving hq pool.jobs queue schedule ∧ Placing pool queue units schedule)
    (fun ht hs => ⟨hs.1.turn hv.jobs_distinct ht, hs.2.turn ht⟩)
    ⟨serving_start hq hv, placing_start pool⟩
  exact ⟨after, hok, hend⟩

/-- A job never runs on two units at once exactly if it always waits for its previous slice. It does
so if there is one unit. -/
theorem sequential_iff_awaitsPrevious {quantum : Nat} (hq : 0 < quantum) (pool : Pool Binary64)
    (valid : pool.check = .ok ()) :
    ∃ after, allocate quantum pool = .ok after ∧
      (Sequential after.schedule.slices ↔ AtEach (AwaitsPrevious pool) after.schedule.slices) ∧
      (pool.units.length = 1 → Sequential after.schedule.slices) := by
  obtain ⟨after, hok, -, hplacing⟩ := exists_placed hq valid
  have hv := Pool.valid_of_check valid
  exact ⟨after, hok, hplacing.placed.sequential_iff hv, hplacing.placed.sequential_of_single hv⟩

/-- Two units that are free at once, for a job of two quanta. -/
def twinUnits : Pool Binary64 where
  jobs := [⟨0, "halves", 200, 0, none, 200⟩]
  units := [⟨0, "left", Quantity.ofNat 100, 0⟩, ⟨1, "right", Quantity.ofNat 100, 0⟩]

theorem twinUnits_check : twinUnits.check = .ok () :=
  twinUnits.check_eq_ok_iff.mpr (by decide +kernel)

theorem sequential_iff_awaitsPrevious_twinUnits :
    twinUnits.check = .ok () ∧ ∃ after, allocate 100 twinUnits = .ok after ∧
      (Sequential after.schedule.slices ↔
        AtEach (AwaitsPrevious twinUnits) after.schedule.slices) := by
  obtain ⟨after, hok, hiff, -⟩ :=
    sequential_iff_awaitsPrevious (by decide : 0 < 100) twinUnits twinUnits_check
  exact ⟨twinUnits_check, after, hok, hiff⟩

/-- Both halves of the job run from 0 to 1. -/
theorem not_sequential_twinUnits :
    twinUnits.check = .ok () ∧
      ∃ after, allocate 100 twinUnits = .ok after ∧ ¬ Sequential after.schedule.slices :=
  ⟨twinUnits_check, exists_ok_of_decide (by decide +kernel)⟩

/-- The completion starts with the first start among the slices of its job. -/
def StartsFirst (schedule : Schedule T) (c : Completion T) : Prop :=
  (∃ slice ∈ schedule.slicesOf c.job, slice.start = c.start) ∧
    ∀ slice ∈ schedule.slicesOf c.job, c.start ≤ slice.start

/-- The completion finishes with the last end among the slices of its job. -/
def FinishesLast (schedule : Schedule T) (c : Completion T) : Prop :=
  (∃ slice ∈ schedule.slicesOf c.job, slice.finish = c.finish) ∧
    ∀ slice ∈ schedule.slicesOf c.job, slice.finish ≤ c.finish

/-- The completions sum up the trace: the times of each job, the makespan and with it the ready
times of the units that ran anything. -/
structure Summarised (after : Allocation T) : Prop where
  start : ∀ c ∈ after.schedule.completions, StartsFirst after.schedule c
  finish : ∀ c ∈ after.schedule.completions, FinishesLast after.schedule c
  makespan : Quantity.Same after.schedule.makespan
    (Quantity.largest (after.schedule.slices.map (·.finish)))
  ready : ∀ unit ∈ after.pool.units, (∃ slice ∈ after.schedule.slices, slice.unit = unit.id) →
    unit.ready ≤ after.schedule.makespan

/-- When a job is granted its last slice, the unit that is free first ends it no earlier than the
slices of the job before it end. -/
def EndsLatest (pool : Pool T) (front : List (Slice T)) (slice : Slice T) : Prop :=
  slice.outcome = .completed → ∀ job ∈ pool.jobs, slice.job = job.id →
    ∀ unit, firstFree? (unitsAfter pool.units front) = some unit →
      ∀ earlier ∈ front, earlier.job = slice.job →
        earlier.finish ≤ Quantity.larger unit.ready job.arrival +
          Quantity.ofNat slice.work / unit.speed

omit [LawfulQuantity T] in
theorem Granted.endsLatest_iff {front : List (Slice T)} {slice : Slice T} {job : Job T}
    {unit : ExecutionUnit T} (hg : Granted pool front slice job unit) (hv : pool.Valid) :
    EndsLatest pool front slice ↔ (slice.outcome = .completed →
      ∀ earlier ∈ front, earlier.job = slice.job → earlier.finish ≤ slice.finish) := by
  rw [hg.finish_eq, hg.start_eq]
  constructor
  · intro h hdone
    exact h hdone job hg.job_mem hg.job_eq unit hg.first
  · intro h hdone other ho hid first hfirst
    obtain rfl := hg.job_unique hv ho hid
    obtain rfl : first = unit := Option.some.inj (hfirst.symm.trans hg.first)
    exact h hdone

section Run

variable {quantum : Nat} {hq : 0 < quantum} {after : Allocation T} {c : Completion T}

theorem startsFirst (hs : Serving hq pool.jobs [] after.schedule)
    (hp : Placed pool after.schedule.slices) (hv : pool.Valid)
    (hc : c ∈ after.schedule.completions) : StartsFirst after.schedule c := by
  obtain ⟨last, -, -, hreports⟩ := hs.exists_reported hc
  have hstart := hreports.start
  rw [← hreports.job, Schedule.firstStart?, Option.map_eq_some_iff] at hstart
  obtain ⟨first, hfind, hfirst⟩ := hstart
  obtain ⟨hown, front, back, hsplit, hnone⟩ := List.find?_eq_some_iff_append.mp hfind
  have hmem := List.mem_of_find?_eq_some hfind
  refine ⟨⟨first, List.mem_filter.mpr ⟨hmem, hown⟩, hfirst⟩, ?_⟩
  intro slice hslice
  obtain ⟨hslice, hjob⟩ := List.mem_filter.mp hslice
  have hordered := hp.pairwise_start_le hv
  rw [← hfirst]
  rw [hsplit] at hslice hordered
  rcases List.mem_append.mp hslice with hm | hm
  · have hother := hnone slice hm
    rw [hjob] at hother
    contradiction
  · rcases List.mem_cons.mp hm with rfl | hm
    · exact Quantity.le_refl (hp.start_le_finish hv hmem).1
    · exact (List.pairwise_cons.mp (List.pairwise_append.mp hordered).2.1).1 slice hm
        ((eq_of_beq hown).trans (eq_of_beq hjob).symm)

omit [LawfulQuantity T] in
theorem endsLatest_of_finishesLast (hs : Serving hq pool.jobs [] after.schedule)
    (hp : Placed pool after.schedule.slices) (hv : pool.Valid)
    (h : ∀ c ∈ after.schedule.completions, FinishesLast after.schedule c) :
    AtEach (EndsLatest pool) after.schedule.slices := by
  intro front slice back hsplit
  obtain ⟨job, unit, hg⟩ := hp front slice back hsplit
  refine (hg.endsLatest_iff hv).mpr fun hdone earlier he hjob => ?_
  have hmem : slice ∈ after.schedule.slices := by
    rw [hsplit]
    exact List.mem_append_right _ List.mem_cons_self
  obtain ⟨c, hc, hreports⟩ := hs.exists_completion hmem hdone
  have hearlier : earlier ∈ after.schedule.slicesOf c.job := by
    refine List.mem_filter.mpr ⟨?_, beq_iff_eq.mpr (hjob.trans hreports.job.symm)⟩
    rw [hsplit]
    exact List.mem_append_left _ he
  rw [← hreports.finish]
  exact (h c hc).2 earlier hearlier

/-- A completion finishes with the last slice of its job, after which the job has no other. -/
theorem finishesLast_of_endsLatest (hs : Serving hq pool.jobs [] after.schedule)
    (hp : Placed pool after.schedule.slices) (hv : pool.Valid)
    (h : AtEach (EndsLatest pool) after.schedule.slices) (hc : c ∈ after.schedule.completions) :
    FinishesLast after.schedule c := by
  obtain ⟨last, hmem, hdone, hreports⟩ := hs.exists_reported hc
  have hown : last ∈ after.schedule.slicesOf c.job :=
    List.mem_filter.mpr ⟨hmem, beq_iff_eq.mpr hreports.job.symm⟩
  refine ⟨⟨last, hown, hreports.finish.symm⟩, ?_⟩
  intro slice hslice
  obtain ⟨hslice, hjob⟩ := List.mem_filter.mp hslice
  have hsame : slice.job = last.job := (eq_of_beq hjob).trans hreports.job
  obtain ⟨front, back, hsplit⟩ := List.append_of_mem hmem
  obtain ⟨job, unit, hg⟩ := hp front last back hsplit
  rw [hreports.finish]
  rw [hsplit, List.mem_append, List.mem_cons] at hslice
  rcases hslice with hm | rfl | hm
  · exact (hg.endsLatest_iff hv).mp (h front last back hsplit) hdone slice hm hsame
  · exact Quantity.le_refl (hp.nonneg_finish hv hmem)
  · have hlength : ∀ job ∈ pool.jobs, 0 < job.length :=
      fun job hj => (hv.jobs_valid job hj).length_pos
    exact absurd hsame (hs.job_ne_of_completed hlength hsplit hdone slice hm)

theorem finish_le_makespan (hs : Serving hq pool.jobs [] after.schedule)
    (hp : Placed pool after.schedule.slices) (hv : pool.Valid)
    (hlast : ∀ c ∈ after.schedule.completions, FinishesLast after.schedule c) {slice : Slice T}
    (hslice : slice ∈ after.schedule.slices) : slice.finish ≤ after.schedule.makespan := by
  obtain ⟨c, hc, hjob⟩ := List.mem_map.mp (hs.completions_perm.symm.subset (hs.known slice hslice))
  have hnonneg : ∀ x ∈ after.schedule.completions.map (·.finish), 0 ≤ x := by
    intro x hx
    obtain ⟨d, hd, rfl⟩ := List.mem_map.mp hx
    obtain ⟨last, hmem, -, hreports⟩ := hs.exists_reported hd
    rw [hreports.finish]
    exact hp.nonneg_finish hv hmem
  exact Quantity.le_trans
    ((hlast c hc).2 slice (List.mem_filter.mpr ⟨hslice, beq_iff_eq.mpr hjob.symm⟩))
    (Quantity.le_largest hnonneg (List.mem_map_of_mem hc))

theorem makespan_le_largest (hs : Serving hq pool.jobs [] after.schedule)
    (hp : Placed pool after.schedule.slices) (hv : pool.Valid) :
    after.schedule.makespan ≤ Quantity.largest (after.schedule.slices.map (·.finish)) := by
  have hnonneg : ∀ x ∈ after.schedule.slices.map (·.finish), 0 ≤ x := by
    intro x hx
    obtain ⟨slice, hm, rfl⟩ := List.mem_map.mp hx
    exact hp.nonneg_finish hv hm
  refine Quantity.largest_le (Quantity.nonneg_largest _) fun x hx => ?_
  obtain ⟨c, hc, rfl⟩ := List.mem_map.mp hx
  obtain ⟨last, hmem, -, hreports⟩ := hs.exists_reported hc
  rw [hreports.finish]
  exact Quantity.le_largest hnonneg (List.mem_map_of_mem hmem)

theorem summarised_iff (hs : Serving hq pool.jobs [] after.schedule)
    (hp : Placing pool [] after.pool.units after.schedule) (hv : pool.Valid) :
    Summarised after ↔ AtEach (EndsLatest pool) after.schedule.slices := by
  refine ⟨fun h => endsLatest_of_finishesLast hs hp.placed hv h.finish, fun h => ?_⟩
  have hlast : ∀ c ∈ after.schedule.completions, FinishesLast after.schedule c :=
    fun c hc => finishesLast_of_endsLatest hs hp.placed hv h hc
  constructor
  · intro c hc
    exact startsFirst hs hp.placed hv hc
  · exact hlast
  · refine ⟨makespan_le_largest hs hp.placed hv, ?_⟩
    refine Quantity.largest_le (Quantity.nonneg_largest _) fun x hx => ?_
    obtain ⟨slice, hm, rfl⟩ := List.mem_map.mp hx
    exact finish_le_makespan hs hp.placed hv hlast hm
  · intro unit hu hran
    rw [hp.units_eq] at hu
    obtain ⟨slice, hm, hle⟩ := hp.placed.exists_ready_le_finish hv hu hran
    exact Quantity.le_trans hle (finish_le_makespan hs hp.placed hv hlast hm)

end Run

/-- Slices that follow one another end in order. -/
theorem Sequential.endsLatest (h : Sequential slices) (hp : Placed pool slices) (hv : pool.Valid) :
    AtEach (EndsLatest pool) slices := by
  intro front slice back hsplit
  obtain ⟨job, unit, hg⟩ := hp front slice back hsplit
  refine (hg.endsLatest_iff hv).mpr fun _ earlier he hjob => ?_
  rw [hsplit, Sequential, List.pairwise_append] at h
  exact Quantity.le_trans (h.2.2 earlier he slice List.mem_cons_self hjob)
    (hg.start_le_finish hv).2

/-- Every job has one completion, which starts when the job first ran. The completions sum up the
trace exactly if every last slice ends latest, so they do if no two slices of a job overlap, and if
there is one unit. -/
theorem summarised_iff_endsLatest {quantum : Nat} (hq : 0 < quantum) (pool : Pool Binary64)
    (valid : pool.check = .ok ()) :
    ∃ after, allocate quantum pool = .ok after ∧
      (after.schedule.completions.map (·.job)).Perm (pool.jobs.map (·.id)) ∧
      (∀ c ∈ after.schedule.completions, StartsFirst after.schedule c) ∧
      (Summarised after ↔ AtEach (EndsLatest pool) after.schedule.slices) ∧
      (Sequential after.schedule.slices → Summarised after) ∧
      (pool.units.length = 1 → Summarised after) := by
  obtain ⟨after, hok, hs, hp⟩ := exists_placed hq valid
  have hv := Pool.valid_of_check valid
  have hiff := summarised_iff hs hp hv
  have hsequential : Sequential after.schedule.slices → Summarised after :=
    fun h => hiff.mpr (h.endsLatest hp.placed hv)
  refine ⟨after, hok, hs.completions_perm, ?_, hiff, hsequential, ?_⟩
  · intro c hc
    exact startsFirst hs hp.placed hv hc
  · intro hone
    exact hsequential (hp.placed.sequential_of_single hv hone)

/-- A unit that is slow but goes first by number, and a fast one, for a job of two quanta. -/
def slowFirst : Pool Binary64 where
  jobs := [⟨0, "halves", 200, 0, none, 200⟩]
  units := [⟨0, "slow", Quantity.ofNat 50, 0⟩, ⟨1, "fast", Quantity.ofNat 100, 0⟩]

theorem slowFirst_check : slowFirst.check = .ok () :=
  slowFirst.check_eq_ok_iff.mpr (by decide +kernel)

theorem summarised_iff_endsLatest_slowFirst :
    slowFirst.check = .ok () ∧ ∃ after, allocate 100 slowFirst = .ok after ∧
      (Summarised after ↔ AtEach (EndsLatest slowFirst) after.schedule.slices) := by
  obtain ⟨after, hok, -, -, hiff, -⟩ :=
    summarised_iff_endsLatest (by decide : 0 < 100) slowFirst slowFirst_check
  exact ⟨slowFirst_check, after, hok, hiff⟩

/-- The first half runs from 0 to 2 and the second from 0 to 1, which is when the job is said to
have finished. -/
theorem not_summarised_slowFirst :
    slowFirst.check = .ok () ∧
      ∃ after, allocate 100 slowFirst = .ok after ∧ ¬ Summarised after := by
  have hrun : ∃ after, allocate 100 slowFirst = .ok after ∧
      ¬ ∀ c ∈ after.schedule.completions, ∀ slice ∈ after.schedule.slicesOf c.job,
        slice.finish ≤ c.finish := exists_ok_of_decide (by decide +kernel)
  obtain ⟨after, hok, hlate⟩ := hrun
  exact ⟨slowFirst_check, after, hok, fun h => hlate fun c hc => (h.finish c hc).2⟩

end JobAllocation.RoundRobin
