import JobAllocation.Proofs.Choices
import JobAllocation.Proofs.HonestSchedules

/-!
# When units are done

Where no arrival delays a unit, it runs its jobs back to back and is done with them at the sum of
the times that they take, on top of its ready time.
-/
namespace JobAllocation

variable {T : Type} [Quantity T]

namespace Quantity

variable [LawfulQuantity T] {x y : T} {ds : List T}

theorem Same.foldl_add (hx : 0 ≤ x) (hy : 0 ≤ y) (hd : ∀ d ∈ ds, 0 ≤ d) (h : Same x y) :
    Same (ds.foldl (· + ·) x) (ds.foldl (· + ·) y) := by
  induction ds generalizing x y with
  | nil => exact h
  | cons d ds ih =>
    obtain ⟨hhead, htail⟩ := List.forall_mem_cons.mp hd
    exact ih (nonneg_add hx hhead) (nonneg_add hy hhead) htail (h.add hx hy hhead)

/-- The largest of no positive times is zero itself. -/
theorem largest_eq_zero {xs : List T} (h : ∀ x ∈ xs, ¬ 0 < x) : largest xs = 0 := by
  induction xs with
  | nil => rfl
  | cons x xs ih =>
    obtain ⟨hhead, htail⟩ := List.forall_mem_cons.mp h
    rw [largest, List.foldl_cons, larger_eq LawfulQuantity.zero_le_zero, if_neg hhead]
    exact ih htail

/-- Lists whose largest times agree have one largest time: no sign of a zero is seen. -/
theorem largest_eq_of_same [OrderedQuantity T] {xs ys : List T} (hx : ∀ x ∈ xs, 0 ≤ x)
    (hy : ∀ y ∈ ys, 0 ≤ y) (h : Same (largest xs) (largest ys)) : largest xs = largest ys := by
  by_cases hpos : 0 < largest xs
  · exact OrderedQuantity.eq_of_same h hpos
  · rw [largest_eq_zero fun x hm hlt => hpos (lt_of_lt_of_le hlt (le_largest hx hm)),
      largest_eq_zero fun y hm hlt => hpos
        (lt_of_lt_of_le hlt (le_trans (le_largest hy hm) h.2))]

end Quantity

/-- How long the job of a given number takes on a unit. -/
def timeTaken (jobs : List (Job T)) (unit : ExecutionUnit T) (id : JobId) : T :=
  ((findJob? jobs id).map fun job => Quantity.ofNat job.length / unit.speed).getD 0

/-- When a unit is done with some jobs that it runs back to back. -/
def doneAt (jobs : List (Job T)) (unit : ExecutionUnit T) (start : T) (ids : List JobId) : T :=
  (ids.map (timeTaken jobs unit)).foldl (· + ·) start

/-- The jobs that a plan runs on a unit, in order. -/
def jobsRun (plan : List (Completion T)) (unit : UnitId) : List JobId :=
  (plan.filter (·.unit == unit)).map (·.job)

section Plans

variable {jobs : List (Job T)} {units : List (ExecutionUnit T)} {plan : List (Completion T)}

theorem timeTaken_of_mem (hd : (jobs.map (·.id)).Nodup) {job : Job T} (hj : job ∈ jobs)
    (unit : ExecutionUnit T) :
    timeTaken jobs unit job.id = Quantity.ofNat job.length / unit.speed := by
  rw [timeTaken, findJob?_of_mem hd hj]
  rfl

theorem timeTaken_congr {a b : ExecutionUnit T} (h : a.speed = b.speed) :
    timeTaken jobs a = timeTaken jobs b := by
  funext id
  rw [timeTaken, timeTaken, h]

variable [LawfulQuantity T]

theorem timeTaken_nonneg (hw : Working units) {unit : ExecutionUnit T} (hu : unit ∈ units)
    (ids : List JobId) : ∀ d ∈ ids.map (timeTaken jobs unit), 0 ≤ d := by
  intro d hm
  obtain ⟨id, -, rfl⟩ := List.mem_map.mp hm
  rw [timeTaken]
  cases findJob? jobs id with
  | none => exact LawfulQuantity.zero_le_zero
  | some job =>
    exact hw.work_nonneg hu job.length

/-- A job that has arrived by the time at which a unit is free is done after its own time. -/
theorem Quantity.same_finish {ready arrival start finish work : T} (hready : 0 ≤ ready)
    (hwork : 0 ≤ work) (harrived : arrival ≤ ready) (hstart : Same start (larger ready arrival))
    (hfinish : finish = start + work) : Same finish (ready + work) := by
  have hlarger : larger ready arrival = ready := by
    rw [larger_eq hready, if_neg fun hlt => not_le_of_lt hlt harrived]
  rw [hlarger] at hstart
  exact hfinish ▸ hstart.add (le_trans hready hstart.2) hready hwork

/-- From the end of a job on, its unit does what is left of the sum. -/
theorem same_doneAt_cons (hw : Working units) (hd : (jobs.map (·.id)).Nodup)
    {unit : ExecutionUnit T} (hu : unit ∈ units) {job : Job T} (hj : job ∈ jobs)
    {c : Completion T} (hjob : c.job = job.id) (hunit : c.unit = unit.id)
    (hle : unit.ready ≤ c.finish)
    (hfinish : Quantity.Same c.finish (unit.ready + Quantity.ofNat job.length / unit.speed))
    (rest : List (Completion T)) :
    Quantity.Same
      (doneAt jobs (unit.advanceTo c.finish) (unit.advanceTo c.finish).ready
        (jobsRun rest unit.id))
      (doneAt jobs unit unit.ready (jobsRun (c :: rest) unit.id)) := by
  have hready := hw.ready_nonneg unit hu
  have hwork := hw.work_nonneg hu job.length
  have hlater := unit.same_ready_advanceTo hready hle
  have hlater0 := Quantity.le_trans (Quantity.le_trans hready hle) hlater.2
  rw [jobsRun, jobsRun, List.filter_cons_of_pos (by simp [hunit]), List.map_cons, hjob, doneAt,
    doneAt, List.map_cons, List.foldl_cons, timeTaken_of_mem hd hj,
    timeTaken_congr (unit.advanceTo_speed _)]
  exact Quantity.Same.foldl_add hlater0 (Quantity.nonneg_add hready hwork)
    (timeTaken_nonneg hw hu _) (hlater.trans hfinish)

theorem ready_le_doneAt (jobs : List (Job T)) (hw : Working units) {unit : ExecutionUnit T}
    (hu : unit ∈ units) (ids : List JobId) : unit.ready ≤ doneAt jobs unit unit.ready ids :=
  Quantity.le_foldl_add (timeTaken_nonneg hw hu ids) (hw.ready_nonneg unit hu)

/-- If no arrival delays it, a unit is done with the jobs of a plan when their times are summed up,
and unless it has none that is when its last job is. -/
theorem Prompt.doneAt_spec (hp : Prompt jobs units plan) (hw : Working units)
    (hd : (jobs.map (·.id)).Nodup) (ha : ∀ job ∈ jobs, job.arrival ≤ 0)
    {unit : ExecutionUnit T} (hu : unit ∈ units) :
    (∀ c ∈ plan, c.unit = unit.id →
        c.finish ≤ doneAt jobs unit unit.ready (jobsRun plan unit.id)) ∧
      (doneAt jobs unit unit.ready (jobsRun plan unit.id) ≤ unit.ready ∨
        ∃ c ∈ plan, doneAt jobs unit unit.ready (jobsRun plan unit.id) ≤ c.finish) := by
  -- By the completions. The unit of the first is advanced, and the sum goes on from there.
  induction hp generalizing unit with
  | nil => exact ⟨nofun, .inl (Quantity.le_refl (hw.ready_nonneg unit hu))⟩
  | @cons units job first c rest job_mem unit_mem job_eq unit_eq start_same finish_eq _ ih =>
    have hready := hw.ready_nonneg first unit_mem
    have hwork := hw.work_nonneg unit_mem job.length
    have hfinish := Quantity.same_finish hready hwork
      (Quantity.le_trans (ha job job_mem) hready) start_same finish_eq
    have hafter : first.ready ≤ c.finish :=
      Quantity.le_trans (LawfulQuantity.le_add hready hwork) hfinish.2
    by_cases heq : unit.id = first.id
    · obtain rfl := List.inj_on_of_nodup_map hw.distinct hu unit_mem heq
      have hmem : unit.advanceTo c.finish ∈ advanceUnit units unit.id c.finish :=
        List.mem_map.mpr ⟨unit, hu, if_pos rfl⟩
      have hdone := same_doneAt_cons hw hd hu job_mem job_eq unit_eq hafter hfinish rest
      have hlater := unit.same_ready_advanceTo hready hafter
      have hrest := ready_le_doneAt jobs (hw.advance _ _) hmem (jobsRun rest unit.id)
      obtain ⟨hall, hsome⟩ := ih (hw.advance _ _) hmem
      rw [unit.advanceTo_id] at hall hsome
      refine ⟨List.forall_mem_cons.mpr ⟨fun _ => ?_, fun other ho hunit => ?_⟩, .inr ?_⟩
      · exact Quantity.le_trans hlater.2 (Quantity.le_trans hrest hdone.1)
      · exact Quantity.le_trans (hall other ho hunit) hdone.1
      · rcases hsome with hle | ⟨other, ho, hle⟩
        · exact ⟨c, List.mem_cons_self, Quantity.le_trans hdone.2
            (Quantity.le_trans hle hlater.1)⟩
        · exact ⟨other, List.mem_cons_of_mem _ ho, Quantity.le_trans hdone.2 hle⟩
    · -- The other units do not see this completion.
      have hmem : unit ∈ advanceUnit units first.id c.finish :=
        List.mem_map.mpr ⟨unit, hu, if_neg heq⟩
      have hrun : jobsRun (c :: rest) unit.id = jobsRun rest unit.id := by
        rw [jobsRun, List.filter_cons_of_neg (by simpa [unit_eq] using Ne.symm heq), ← jobsRun]
      obtain ⟨hall, hsome⟩ := ih (hw.advance _ _) hmem
      rw [hrun]
      refine ⟨List.forall_mem_cons.mpr ⟨fun h => absurd (h.symm.trans unit_eq) heq, hall⟩, ?_⟩
      exact hsome.imp_right fun ⟨later, hl, hle⟩ => ⟨later, List.mem_cons_of_mem _ hl, hle⟩

/-- Each completion of a plan is on one of the units, and none ends before zero. -/
theorem Prompt.exists_unit (hp : Prompt jobs units plan) (hw : Working units)
    (ha : ∀ job ∈ jobs, 0 ≤ job.arrival) :
    ∀ c ∈ plan, 0 ≤ c.finish ∧ ∃ unit ∈ units, c.unit = unit.id := by
  intro c hc
  obtain ⟨job, -, unit, hu, honest⟩ := hp.completions_honest (noEarlier_refl hw) hw ha c hc
  have hstart := Quantity.le_trans (hw.ready_nonneg unit hu) honest.free
  exact ⟨Quantity.le_trans hstart honest.forward, unit, hu, honest.unit_eq⟩

end Plans

end JobAllocation
