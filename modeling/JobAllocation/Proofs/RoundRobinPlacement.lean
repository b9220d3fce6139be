import JobAllocation.Proofs.RoundRobinRun
import Mathlib.Data.List.Induction
import Mathlib.Data.List.Nodup

/-!
# Where round robin places a slice

A slice is placed by two times only: when the unit that is free first is free, and when the job
arrived. When the earlier slices of the job end is not among them. So the slices of one unit never
overlap and the slices of one job start in order, but nothing here says when a job's slices end.
-/
namespace JobAllocation.RoundRobin

variable {T : Type}

def AtEach (P : List (Slice T) → Slice T → Prop) (slices : List (Slice T)) : Prop :=
  ∀ front slice back, slices = front ++ slice :: back → P front slice

theorem atEach_nil (P : List (Slice T) → Slice T → Prop) : AtEach P [] := by
  intro front slice back h
  simp at h

theorem atEach_concat {P : List (Slice T) → Slice T → Prop} {slices : List (Slice T)}
    {slice : Slice T} : AtEach P (slices ++ [slice]) ↔ AtEach P slices ∧ P slices slice := by
  constructor
  · intro h
    refine ⟨fun front s back hs => h front s (back ++ [slice]) ?_, h slices slice [] rfl⟩
    rw [hs, List.append_assoc, List.cons_append]
  · rintro ⟨h, hlast⟩ front s back hs
    rcases List.eq_nil_or_concat back with rfl | ⟨back, last, rfl⟩
    · obtain ⟨rfl, heq⟩ := List.append_inj' hs rfl
      obtain ⟨rfl, -⟩ := List.cons.inj heq
      exact hlast
    · rw [List.concat_eq_append, ← List.cons_append, ← List.append_assoc] at hs
      exact h front s back (List.append_inj' hs rfl).1

theorem AtEach.of_mem {P : List (Slice T) → Slice T → Prop} {slices : List (Slice T)}
    (h : AtEach P slices) {slice : Slice T} (hs : slice ∈ slices) : ∃ front, P front slice := by
  obtain ⟨front, back, hsplit⟩ := List.append_of_mem hs
  exact ⟨front, h front slice back hsplit⟩

variable [Quantity T]

/-- The units after a trace has run on them. -/
def unitsAfter (units : List (ExecutionUnit T)) (slices : List (Slice T)) :
    List (ExecutionUnit T) :=
  slices.foldl (fun units slice => advanceUnit units slice.unit slice.finish) units

theorem unitsAfter_concat (units : List (ExecutionUnit T)) (slices : List (Slice T))
    (slice : Slice T) :
    unitsAfter units (slices ++ [slice]) =
      advanceUnit (unitsAfter units slices) slice.unit slice.finish := by
  rw [unitsAfter, List.foldl_append, List.foldl_cons, List.foldl_nil, unitsAfter]

theorem map_id_unitsAfter (units : List (ExecutionUnit T)) (slices : List (Slice T)) :
    (unitsAfter units slices).map (·.id) = units.map (·.id) := by
  induction slices using List.reverseRecOn with
  | nil => rfl
  | append_singleton slices slice ih => rw [unitsAfter_concat, map_id_advanceUnit, ih]

theorem working_unitsAfter {units : List (ExecutionUnit T)} (hw : Working units)
    (slices : List (Slice T)) : Working (unitsAfter units slices) := by
  induction slices using List.reverseRecOn with
  | nil => exact hw
  | append_singleton slices slice ih =>
    rw [unitsAfter_concat]
    exact ih.advance _ _

/-- The units of a pool of one are all that one. -/
theorem id_eq_of_single {pool : Pool T} (hone : pool.units.length = 1) {a b : ExecutionUnit T}
    {front back : List (Slice T)} (ha : a ∈ unitsAfter pool.units front)
    (hb : b ∈ unitsAfter pool.units back) : a.id = b.id := by
  have hia : a.id ∈ pool.units.map (·.id) :=
    map_id_unitsAfter pool.units front ▸ List.mem_map_of_mem ha
  have hib : b.id ∈ pool.units.map (·.id) :=
    map_id_unitsAfter pool.units back ▸ List.mem_map_of_mem hb
  obtain ⟨only, honly⟩ := List.length_eq_one_iff.mp hone
  rw [honly, List.map_singleton, List.mem_singleton] at hia hib
  rw [hia, hib]

/-- A slice of a job, granted after others on the unit that was free first. -/
structure Granted (pool : Pool T) (front : List (Slice T)) (slice : Slice T) (job : Job T)
    (unit : ExecutionUnit T) : Prop where
  job_mem : job ∈ pool.jobs
  job_eq : slice.job = job.id
  first : firstFree? (unitsAfter pool.units front) = some unit
  unit_eq : slice.unit = unit.id
  start_eq : slice.start = Quantity.larger unit.ready job.arrival
  finish_eq : slice.finish = slice.start + Quantity.ofNat slice.work / unit.speed

/-- A trace whose slices were all placed so. -/
def Placed (pool : Pool T) (slices : List (Slice T)) : Prop :=
  AtEach (fun front slice => ∃ job unit, Granted pool front slice job unit) slices

theorem placed_concat {pool : Pool T} {slices : List (Slice T)} {slice : Slice T} :
    Placed pool (slices ++ [slice]) ↔
      Placed pool slices ∧ ∃ job unit, Granted pool slices slice job unit := atEach_concat

/-- What holds between turns of the units and of the times in the trace. -/
structure Placing (pool : Pool T) (queue : List (Job T)) (units : List (ExecutionUnit T))
    (schedule : Schedule T) : Prop where
  units_eq : units = unitsAfter pool.units schedule.slices
  queued : ∀ job ∈ queue, ∃ source ∈ pool.jobs, source.id = job.id ∧ source.arrival = job.arrival
  placed : Placed pool schedule.slices

theorem placing_start (pool : Pool T) : Placing pool pool.freshJobs pool.units .empty where
  units_eq := rfl
  queued job hj := by
    obtain ⟨source, hs, rfl⟩ := Pool.exists_of_mem_freshJobs hj
    exact ⟨source, hs, rfl, rfl⟩
  placed := atEach_nil _

theorem Placing.turn {quantum : Nat} {pool : Pool T} {job : Job T} {rest : List (Job T)}
    {units : List (ExecutionUnit T)} {schedule : Schedule T} {unit : ExecutionUnit T}
    {slice : Slice T} (h : Placing pool (job :: rest) units schedule)
    (ht : Turn quantum job units schedule unit slice) :
    Placing pool (requeue job slice.remaining rest) (advanceUnit units unit.id slice.finish)
      (record schedule slice) := by
  have hunit : slice.unit = unit.id := by rw [ht.slice_eq, sliceOn]
  constructor
  · rw [record_slices, unitsAfter_concat, ← h.units_eq, hunit]
  · intro queued hm
    rcases mem_requeue hm with hm | ⟨-, rfl⟩
    · exact h.queued queued (List.mem_cons_of_mem _ hm)
    · exact h.queued job List.mem_cons_self
  · obtain ⟨source, hs, hid, harrival⟩ := h.queued job List.mem_cons_self
    rw [record_slices]
    refine placed_concat.mpr ⟨h.placed, source, unit, hs, ?_, ?_, hunit, ?_, ?_⟩
    · rw [ht.slice_job, hid]
    · rw [← h.units_eq]
      exact ht.first
    · rw [ht.slice_eq, harrival]
      rfl
    · rw [ht.slice_eq]
      rfl

variable [LawfulQuantity T] {pool : Pool T} {front slices : List (Slice T)} {slice : Slice T}
  {job : Job T} {unit : ExecutionUnit T}

namespace Granted

omit [LawfulQuantity T] in
theorem unit_mem (h : Granted pool front slice job unit) : unit ∈ unitsAfter pool.units front :=
  Selection.mem_of_best? h.first

omit [LawfulQuantity T] in
theorem job_unique (h : Granted pool front slice job unit) (hv : pool.Valid) {other : Job T}
    (ho : other ∈ pool.jobs) (hid : slice.job = other.id) : other = job :=
  List.inj_on_of_nodup_map hv.jobs_distinct ho h.job_mem (hid.symm.trans h.job_eq)

theorem ready_le_start (h : Granted pool front slice job unit) (hv : pool.Valid) :
    0 ≤ unit.ready ∧ unit.ready ≤ slice.start := by
  have hready := (working_unitsAfter hv.working front).ready_nonneg unit h.unit_mem
  refine ⟨hready, ?_⟩
  rw [h.start_eq]
  exact Quantity.left_le_larger hready job.arrival

/-- No unit is free earlier than the one that the slice was granted on. -/
theorem start_le (h : Granted pool front slice job unit) (hv : pool.Valid)
    {other : ExecutionUnit T} (ho : other ∈ unitsAfter pool.units front) :
    slice.start ≤ Quantity.larger other.ready job.arrival := by
  have hw := working_unitsAfter hv.working front
  have harrival := (hv.jobs_valid job h.job_mem).arrival_nonneg
  rw [h.start_eq]
  exact Quantity.larger_le_larger (h.ready_le_start hv).1 harrival
    (firstFree?_ready_le hw h.first other ho) (Quantity.le_refl harrival)

theorem start_le_finish (h : Granted pool front slice job unit) (hv : pool.Valid) :
    0 ≤ slice.start ∧ slice.start ≤ slice.finish := by
  have hw := working_unitsAfter hv.working front
  obtain ⟨hready, hle⟩ := h.ready_le_start hv
  have hstart := Quantity.le_trans hready hle
  refine ⟨hstart, ?_⟩
  rw [h.finish_eq]
  exact LawfulQuantity.le_add hstart (hw.work_nonneg h.unit_mem slice.work)

end Granted

namespace Placed

theorem start_le_finish (h : Placed pool slices) (hv : pool.Valid) (hs : slice ∈ slices) :
    0 ≤ slice.start ∧ slice.start ≤ slice.finish := by
  obtain ⟨front, job, unit, hg⟩ := h.of_mem hs
  exact hg.start_le_finish hv

theorem nonneg_finish (h : Placed pool slices) (hv : pool.Valid) (hs : slice ∈ slices) :
    0 ≤ slice.finish := by
  obtain ⟨hstart, hle⟩ := h.start_le_finish hv hs
  exact Quantity.le_trans hstart hle

/-- A unit is busy until every slice granted on it has ended. -/
theorem finish_le_ready (h : Placed pool slices) (hv : pool.Valid) (hs : slice ∈ slices)
    (hu : unit ∈ unitsAfter pool.units slices) (hid : unit.id = slice.unit) :
    slice.finish ≤ unit.ready := by
  induction slices using List.reverseRecOn generalizing unit with
  | nil => simp at hs
  | append_singleton slices last ih =>
    rw [unitsAfter_concat] at hu
    obtain ⟨before, hb, hbid, hready, htime⟩ :=
      exists_le_of_mem_advanceUnit (working_unitsAfter hv.working slices) hu
    rcases List.mem_append.mp hs with hm | hm
    · exact Quantity.le_trans (ih (placed_concat.mp h).1 hm hb (hbid.trans hid)) hready
    · obtain rfl := List.mem_singleton.mp hm
      exact htime hid (h.nonneg_finish hv hs)

/-- A unit that ran a slice is free once its last one has ended. -/
theorem exists_ready_le_finish (h : Placed pool slices) (hv : pool.Valid)
    (hu : unit ∈ unitsAfter pool.units slices) (hs : ∃ slice ∈ slices, slice.unit = unit.id) :
    ∃ slice ∈ slices, unit.ready ≤ slice.finish := by
  induction slices using List.reverseRecOn generalizing unit with
  | nil => simp at hs
  | append_singleton slices last ih =>
    obtain ⟨hplaced, job, granted, hg⟩ := placed_concat.mp h
    have hw := working_unitsAfter hv.working slices
    rw [unitsAfter_concat] at hu
    obtain ⟨before, hb, hbid, -, hr⟩ := exists_of_mem_advanceUnit hu
    -- The last slice was granted on the unit as it was before, so it ends no earlier.
    by_cases heq : before.id = last.unit
    · obtain rfl := List.inj_on_of_nodup_map hw.distinct hb hg.unit_mem (heq.trans hg.unit_eq)
      have hfinish := Quantity.le_trans (hg.ready_le_start hv).2 (hg.start_le_finish hv).2
      refine ⟨last, List.mem_append_right _ (List.mem_singleton.mpr rfl), ?_⟩
      rw [hr]
      split
      · exact Quantity.le_refl (h.nonneg_finish hv (List.mem_append_right _ List.mem_cons_self))
      · exact hfinish
    · have hearlier : ∃ slice ∈ slices, slice.unit = before.id := by
        obtain ⟨slice, hm, hunit⟩ := hs
        rcases List.mem_append.mp hm with hm | hm
        · exact ⟨slice, hm, hunit.trans hbid.symm⟩
        · obtain rfl := List.mem_singleton.mp hm
          exact absurd (hbid.trans hunit.symm) heq
      obtain ⟨slice, hm, hle⟩ := ih hplaced hb hearlier
      refine ⟨slice, List.mem_append_left _ hm, ?_⟩
      rw [hr, if_neg fun hn => heq hn.1]
      exact hle

/-- Ready times only grow, so no unit offers a job a start before one that the job has had. -/
theorem start_le_ready (h : Placed pool slices) (hv : pool.Valid) (hs : slice ∈ slices)
    (hj : job ∈ pool.jobs) (hid : slice.job = job.id) (hu : unit ∈ unitsAfter pool.units slices) :
    slice.start ≤ Quantity.larger unit.ready job.arrival := by
  induction slices using List.reverseRecOn generalizing unit with
  | nil => simp at hs
  | append_singleton slices last ih =>
    obtain ⟨hplaced, granted, _, hg⟩ := placed_concat.mp h
    have hw := working_unitsAfter hv.working slices
    have harrival := (hv.jobs_valid job hj).arrival_nonneg
    rw [unitsAfter_concat] at hu
    obtain ⟨before, hb, -, hready, -⟩ := exists_le_of_mem_advanceUnit hw hu
    have hlater := Quantity.larger_le_larger (hw.ready_nonneg before hb) harrival hready
      (Quantity.le_refl harrival)
    rcases List.mem_append.mp hs with hm | hm
    · exact Quantity.le_trans (ih hplaced hm hb) hlater
    · obtain rfl := List.mem_singleton.mp hm
      obtain rfl := hg.job_unique hv hj hid
      exact Quantity.le_trans (hg.start_le hv hb) hlater

/-- The slices of one job start in the order of the trace. -/
theorem pairwise_start_le (h : Placed pool slices) (hv : pool.Valid) :
    slices.Pairwise fun a b => a.job = b.job → a.start ≤ b.start := by
  induction slices using List.reverseRecOn with
  | nil => exact .nil
  | append_singleton slices last ih =>
    obtain ⟨hplaced, job, unit, hg⟩ := placed_concat.mp h
    rw [List.pairwise_append]
    refine ⟨ih hplaced, List.pairwise_singleton _ _, ?_⟩
    intro a ha b hb heq
    obtain rfl := List.mem_singleton.mp hb
    rw [hg.start_eq]
    exact hplaced.start_le_ready hv ha hg.job_mem (heq.trans hg.job_eq) hg.unit_mem

end Placed
end JobAllocation.RoundRobin
