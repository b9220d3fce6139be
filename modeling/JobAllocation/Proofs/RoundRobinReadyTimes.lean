import JobAllocation.Proofs.RoundRobinOverlap
import JobAllocation.Proofs.StrictTimes

/-!
# A trace tells when each unit was free

The ready times of the units are not part of a trace, but they can be read off it. A unit is free
from the end of the last slice that it ran, and from its own ready time until it has run one. This
is exact: a slice ends no earlier than its unit was free, and at a positive time, where times that
agree are one. With the ready times the trace also tells why each slice stands where it does.
-/
namespace JobAllocation.RoundRobin

variable {T : Type}

/-- From when a unit is free after a trace. -/
def freeFrom (unit : ExecutionUnit T) (slices : List (Slice T)) : T :=
  ((slices.filter (·.unit == unit.id)).getLast?.map (·.finish)).getD unit.ready

theorem freeFrom_concat (unit : ExecutionUnit T) (slices : List (Slice T)) (slice : Slice T) :
    freeFrom unit (slices ++ [slice]) =
      if unit.id = slice.unit then slice.finish else freeFrom unit slices := by
  unfold freeFrom
  rw [List.filter_append]
  by_cases h : unit.id = slice.unit
  · simp [h]
  · simp [h, Ne.symm h]

variable [Quantity T]

/-- Free earlier than another unit after a trace, or as early with a lower number. -/
def FreeBefore (slices : List (Slice T)) (unit other : ExecutionUnit T) : Prop :=
  freeFrom unit slices < freeFrom other slices ∨
    Quantity.Same (freeFrom unit slices) (freeFrom other slices) ∧ unit.id < other.id

/-- A slice that stands where the trace before it says that it has to: on the unit that is free
first, from when this unit is free and the job has arrived, for as long as the unit takes. -/
structure Certified (pool : Pool T) (front : List (Slice T)) (slice : Slice T) (job : Job T)
    (unit : ExecutionUnit T) : Prop where
  job_mem : job ∈ pool.jobs
  job_eq : slice.job = job.id
  unit_mem : unit ∈ pool.units
  unit_eq : slice.unit = unit.id
  first : ∀ other ∈ pool.units, other ≠ unit → FreeBefore front unit other
  start_eq : slice.start = Quantity.larger (freeFrom unit front) job.arrival
  finish_eq : slice.finish = slice.start + Quantity.ofNat slice.work / unit.speed

/-- The units of a pool, each free from when a trace says. -/
def unitsFrom (pool : Pool T) (slices : List (Slice T)) : List (ExecutionUnit T) :=
  pool.units.map fun unit => { unit with ready := freeFrom unit slices }

section Ready

variable [StrictQuantity T] {pool : Pool T} {slices : List (Slice T)} {slice : Slice T}
  {job : Job T} {unit : ExecutionUnit T}

theorem Granted.pos_finish (h : Granted pool slices slice job unit) (hv : pool.Valid)
    (hwork : 0 < slice.work) : 0 < slice.finish := by
  have hw := working_unitsAfter hv.working slices
  rw [h.finish_eq]
  exact StrictQuantity.pos_add (h.start_le_finish hv).1 (hw.work_pos h.unit_mem hwork)

/-- What the trace says of the units is what has become of them. -/
theorem Placed.unitsAfter_eq (h : Placed pool slices) (hv : pool.Valid)
    (hwork : ∀ slice ∈ slices, 0 < slice.work) :
    unitsAfter pool.units slices = unitsFrom pool slices := by
  induction slices using List.reverseRecOn with
  | nil => exact (List.map_id pool.units).symm
  | append_singleton slices slice ih =>
    obtain ⟨hplaced, job, granted, hg⟩ := placed_concat.mp h
    have hunits := ih hplaced fun s hs => hwork s (List.mem_append_left _ hs)
    have hw := working_unitsAfter hv.working slices
    have hpos := hg.pos_finish hv (hwork slice (List.mem_append_right _ List.mem_cons_self))
    have hready := hg.ready_le_start hv
    have hle := Quantity.le_trans hready.2 (hg.start_le_finish hv).2
    rw [unitsAfter_concat, hunits, advanceUnit, unitsFrom, unitsFrom, List.map_map]
    refine List.map_congr_left fun unit hu => ?_
    have hmem : { unit with ready := freeFrom unit slices } ∈ unitsAfter pool.units slices :=
      hunits ▸ List.mem_map_of_mem hu
    rw [Function.comp_apply, freeFrom_concat]
    by_cases hid : unit.id = slice.unit
    · -- This is the unit that the slice was granted on.
      obtain rfl := List.inj_on_of_nodup_map hw.distinct hg.unit_mem hmem
        (hg.unit_eq.symm.trans hid.symm)
      rw [if_pos hid, if_pos hid]
      exact ExecutionUnit.advanceTo_eq hle hpos hready.1
    · rw [if_neg hid, if_neg hid]

/-- Nothing but the trace and the pool is needed to say where a slice was granted. -/
theorem Granted.exists_certified (h : Granted pool slices slice job unit) (hv : pool.Valid)
    (hunits : unitsAfter pool.units slices = unitsFrom pool slices) :
    ∃ unit, Certified pool slices slice job unit := by
  have hw := working_unitsAfter hv.working slices
  have hdecides : Selection.Decides ExecutionUnit.freeBefore (unitsAfter pool.units slices) :=
    decides_of_earlier (fun _ _ => rfl) hw.distinct hw.ready_nonneg
  have hfirst := hdecides.eq_or_prefers h.first
  obtain ⟨source, hs, rfl⟩ := List.mem_map.mp (hunits ▸ h.unit_mem)
  refine ⟨source, h.job_mem, h.job_eq, hs, h.unit_eq, ?_, h.start_eq, h.finish_eq⟩
  intro other ho hne
  have hmem : { other with ready := freeFrom other slices } ∈ unitsAfter pool.units slices :=
    hunits ▸ List.mem_map_of_mem ho
  rcases hfirst _ hmem with heq | hbefore
  · have hid : other.id = source.id := (congrArg (·.id) heq).symm
    exact absurd (List.inj_on_of_nodup_map hv.units_distinct ho hs hid) hne
  · simpa [ExecutionUnit.freeBefore, FreeBefore] using hbefore

theorem Placed.certified (h : Placed pool slices) (hv : pool.Valid)
    (hwork : ∀ slice ∈ slices, 0 < slice.work) :
    AtEach (fun front slice => ∃ job unit, Certified pool front slice job unit) slices := by
  induction slices using List.reverseRecOn with
  | nil => exact atEach_nil _
  | append_singleton slices slice ih =>
    obtain ⟨hplaced, job, granted, hg⟩ := placed_concat.mp h
    have hbefore : ∀ s ∈ slices, 0 < s.work := fun s hs => hwork s (List.mem_append_left _ hs)
    exact atEach_concat.mpr ⟨ih hplaced hbefore, job,
      hg.exists_certified hv (hplaced.unitsAfter_eq hv hbefore)⟩

end Ready

section Arrived

variable [LawfulQuantity T] {pool : Pool T} {slices : List (Slice T)} {slice : Slice T}
  {unit : ExecutionUnit T}

theorem le_ready_unitsAfter {units : List (ExecutionUnit T)} (hw : Working units) {time : T}
    (h : ∀ unit ∈ units, time ≤ unit.ready) (hu : unit ∈ unitsAfter units slices) :
    time ≤ unit.ready := by
  induction slices using List.reverseRecOn generalizing unit with
  | nil => exact h unit hu
  | append_singleton slices slice ih =>
    rw [unitsAfter_concat] at hu
    obtain ⟨before, hb, -, hle, -⟩ :=
      exists_le_of_mem_advanceUnit (working_unitsAfter hw slices) hu
    exact Quantity.le_trans (ih hb) hle

/-- Where no job is waited for, the unit that is free first is the only bound on a start, and no
unit is ever free before it again. -/
theorem Placed.start_le_ready_of_arrived (h : Placed pool slices) (hv : pool.Valid)
    (harrived : ∀ job ∈ pool.jobs, ∀ unit ∈ pool.units, job.arrival ≤ unit.ready)
    (hs : slice ∈ slices) (hu : unit ∈ unitsAfter pool.units slices) :
    slice.start ≤ unit.ready := by
  induction slices using List.reverseRecOn generalizing unit with
  | nil => simp at hs
  | append_singleton slices last ih =>
    obtain ⟨hplaced, job, granted, hg⟩ := placed_concat.mp h
    have hw := working_unitsAfter hv.working slices
    rw [unitsAfter_concat] at hu
    obtain ⟨before, hb, -, hle, -⟩ := exists_le_of_mem_advanceUnit hw hu
    refine Quantity.le_trans (y := before.ready) ?_ hle
    rcases List.mem_append.mp hs with hm | hm
    · exact ih hplaced hm hb
    · obtain rfl := List.mem_singleton.mp hm
      rw [hg.start_eq]
      exact Quantity.larger_le (hw.ready_nonneg granted hg.unit_mem)
        (firstFree?_ready_le hw hg.first before hb)
        (le_ready_unitsAfter hv.working (harrived job hg.job_mem) hb)

theorem Placed.pairwise_start_le_of_arrived (h : Placed pool slices) (hv : pool.Valid)
    (harrived : ∀ job ∈ pool.jobs, ∀ unit ∈ pool.units, job.arrival ≤ unit.ready) :
    slices.Pairwise fun a b => a.start ≤ b.start := by
  induction slices using List.reverseRecOn with
  | nil => exact .nil
  | append_singleton slices last ih =>
    obtain ⟨hplaced, job, unit, hg⟩ := placed_concat.mp h
    refine List.pairwise_append.mpr ⟨ih hplaced, List.pairwise_singleton _ _, ?_⟩
    intro a ha b hb
    obtain rfl := List.mem_singleton.mp hb
    exact Quantity.le_trans (hplaced.start_le_ready_of_arrived hv harrived ha hg.unit_mem)
      (hg.ready_le_start hv).2

end Arrived

/-- A trace certifies its own placements. It holds all the work of every job, every slice is on the
unit that the slices before it leave free first, it starts and ends as that unit and the arrival of
its job say, and each unit ends up free from its last slice on. If every job is there before any
unit is ready, slices start in the order of the trace. -/
theorem slices_certified {quantum : Nat} (hq : 0 < quantum) (pool : Pool Binary64)
    (valid : pool.check = .ok ()) :
    ∃ after, allocate quantum pool = .ok after ∧
      (∀ job ∈ pool.jobs, ((after.schedule.slicesOf job.id).map (·.work)).sum = job.length) ∧
      AtEach (fun front slice => ∃ job unit, Certified pool front slice job unit)
        after.schedule.slices ∧
      after.pool.units = unitsFrom pool after.schedule.slices ∧
      ((∀ job ∈ pool.jobs, ∀ unit ∈ pool.units, job.arrival ≤ unit.ready) →
        after.schedule.slices.Pairwise fun a b => a.start ≤ b.start) := by
  obtain ⟨after, hok, hserving, hplacing⟩ := exists_placed hq valid
  have hv := Pool.valid_of_check valid
  have hplaced := hplacing.placed
  have hwork : ∀ slice ∈ after.schedule.slices, 0 < slice.work := fun _ hs => hserving.work_pos hs
  refine ⟨after, hok, fun _ hj => hserving.sum_work hj, hplaced.certified hv hwork, ?_,
    hplaced.pairwise_start_le_of_arrived hv⟩
  rw [hplacing.units_eq]
  exact hplaced.unitsAfter_eq hv hwork

/-- Two units that are ready at different times, for jobs that are there before. -/
def staggeredUnits : Pool Binary64 where
  jobs := [⟨0, "long", 250, 0, none, 250⟩, ⟨1, "short", 120, Quantity.ofNat 1, none, 120⟩]
  units := [⟨0, "slow", Quantity.ofNat 50, Quantity.ofNat 2⟩,
    ⟨1, "fast", Quantity.ofNat 100, Quantity.ofNat 1⟩]

theorem slices_certified_staggeredUnits :
    staggeredUnits.check = .ok () ∧
      (∀ job ∈ staggeredUnits.jobs, ∀ unit ∈ staggeredUnits.units, job.arrival ≤ unit.ready) ∧
      ∃ after, allocate 100 staggeredUnits = .ok after ∧
        AtEach (fun front slice => ∃ job unit, Certified staggeredUnits front slice job unit)
          after.schedule.slices ∧
        after.pool.units = unitsFrom staggeredUnits after.schedule.slices ∧
        after.schedule.slices.Pairwise fun a b => a.start ≤ b.start := by
  have hcheck : staggeredUnits.check = .ok () :=
    staggeredUnits.check_eq_ok_iff.mpr (by decide +kernel)
  have harrived : ∀ job ∈ staggeredUnits.jobs, ∀ unit ∈ staggeredUnits.units,
      job.arrival ≤ unit.ready := by decide +kernel
  obtain ⟨after, hok, -, hcertified, hunits, hordered⟩ :=
    slices_certified (by decide : 0 < 100) staggeredUnits hcheck
  exact ⟨hcheck, harrived, after, hok, hcertified, hunits, hordered harrived⟩

end JobAllocation.RoundRobin
