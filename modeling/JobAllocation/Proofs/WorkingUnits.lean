import JobAllocation.Offer
import JobAllocation.Proofs.Times
import JobAllocation.Proofs.Traversals
import JobAllocation.Proofs.ValidPool

/-!
# Units at work

Units that some work has been committed to are no longer the units of the input, but they keep what
the policies rely on: there are some, their numbers are distinct, their speeds are positive and they
are free from some time on. On such units every offer is made, and some unit is free first.
-/
namespace JobAllocation

variable {T : Type} [Quantity T]

structure Working (units : List (ExecutionUnit T)) : Prop where
  ne_nil : units ≠ []
  distinct : (units.map (·.id)).Nodup
  speed_finite : ∀ unit ∈ units, Quantity.isFinite unit.speed = true
  speed_pos : ∀ unit ∈ units, 0 < unit.speed
  ready_nonneg : ∀ unit ∈ units, 0 ≤ unit.ready

theorem Pool.Valid.working {pool : Pool T} (h : pool.Valid) : Working pool.units where
  ne_nil := h.units_ne_nil
  distinct := h.units_distinct
  speed_finite unit hu := (h.units_valid unit hu).speed_finite
  speed_pos unit hu := (h.units_valid unit hu).speed_pos
  ready_nonneg unit hu := (h.units_valid unit hu).ready_nonneg

/-- Work takes no negative time. -/
theorem Working.work_nonneg [LawfulQuantity T] {units : List (ExecutionUnit T)} (h : Working units)
    {unit : ExecutionUnit T} (hu : unit ∈ units) (n : Nat) :
    0 ≤ Quantity.ofNat n / unit.speed :=
  LawfulQuantity.work_nonneg n (h.speed_finite unit hu) (h.speed_pos unit hu)

@[simp] theorem ExecutionUnit.advanceTo_id (unit : ExecutionUnit T) (time : T) :
    (unit.advanceTo time).id = unit.id := by
  unfold advanceTo
  split <;> rfl

@[simp] theorem ExecutionUnit.advanceTo_name (unit : ExecutionUnit T) (time : T) :
    (unit.advanceTo time).name = unit.name := by
  unfold advanceTo
  split <;> rfl

@[simp] theorem ExecutionUnit.advanceTo_speed (unit : ExecutionUnit T) (time : T) :
    (unit.advanceTo time).speed = unit.speed := by
  unfold advanceTo
  split <;> rfl

theorem ExecutionUnit.advanceTo_ready (unit : ExecutionUnit T) (time : T) :
    (unit.advanceTo time).ready = if unit.ready < time then time else unit.ready := by
  unfold advanceTo
  split <;> rfl

/-- A unit that is kept busy until after it was free is free from then on. -/
theorem ExecutionUnit.same_ready_advanceTo [LawfulQuantity T] {unit : ExecutionUnit T} {time : T}
    (hready : 0 ≤ unit.ready) (hle : unit.ready ≤ time) :
    Quantity.Same (unit.advanceTo time).ready time := by
  have htime := Quantity.le_trans hready hle
  rw [advanceTo_ready]
  split
  · exact Quantity.Same.refl htime
  · next hlt => exact ⟨hle, Quantity.le_of_not_lt hready htime hlt⟩

theorem map_id_advanceUnit (units : List (ExecutionUnit T)) (id : UnitId) (time : T) :
    (advanceUnit units id time).map (·.id) = units.map (·.id) := by
  unfold advanceUnit
  rw [List.map_map]
  refine List.map_congr_left fun unit _ => ?_
  rw [Function.comp_apply]
  split <;> simp

/-- What a unit was before another or the same unit was kept busy. -/
theorem exists_of_mem_advanceUnit {units : List (ExecutionUnit T)} {id : UnitId} {time : T}
    {unit : ExecutionUnit T} (h : unit ∈ advanceUnit units id time) :
    ∃ before ∈ units, before.id = unit.id ∧ before.speed = unit.speed ∧
      unit.ready = if before.id = id ∧ before.ready < time then time else before.ready := by
  obtain ⟨before, hb, rfl⟩ := List.mem_map.mp h
  refine ⟨before, hb, ?_⟩
  split
  · next hid => simp [hid, ExecutionUnit.advanceTo_ready]
  · next hid => simp [hid]

theorem Working.of_perm {units others : List (ExecutionUnit T)} (h : Working units)
    (hp : units.Perm others) : Working others where
  ne_nil hnil := h.ne_nil (hnil ▸ hp).eq_nil
  distinct := (hp.map _).nodup_iff.mp h.distinct
  speed_finite unit hu := h.speed_finite unit (hp.symm.subset hu)
  speed_pos unit hu := h.speed_pos unit (hp.symm.subset hu)
  ready_nonneg unit hu := h.ready_nonneg unit (hp.symm.subset hu)

theorem Working.advance {units : List (ExecutionUnit T)} (h : Working units) (id : UnitId)
    (time : T) : Working (advanceUnit units id time) where
  ne_nil := by simpa [advanceUnit] using h.ne_nil
  distinct := by
    rw [map_id_advanceUnit]
    exact h.distinct
  speed_finite unit hu := by
    obtain ⟨before, hb, -, hs, -⟩ := exists_of_mem_advanceUnit hu
    exact hs ▸ h.speed_finite before hb
  speed_pos unit hu := by
    obtain ⟨before, hb, -, hs, -⟩ := exists_of_mem_advanceUnit hu
    exact hs ▸ h.speed_pos before hb
  ready_nonneg unit hu := by
    obtain ⟨before, hb, -, -, hr⟩ := exists_of_mem_advanceUnit hu
    have hbefore := h.ready_nonneg before hb
    rw [hr]
    by_cases hlt : before.id = id ∧ before.ready < time
    · rw [if_pos hlt]
      exact Quantity.le_trans hbefore (Quantity.le_of_lt hlt.2)
    · rw [if_neg hlt]
      exact hbefore

/-- Keeping a unit busy makes no unit free earlier, and that unit not before the given time. -/
theorem exists_le_of_mem_advanceUnit [LawfulQuantity T] {units : List (ExecutionUnit T)}
    (hw : Working units) {id : UnitId} {time : T} {unit : ExecutionUnit T}
    (h : unit ∈ advanceUnit units id time) :
    ∃ before ∈ units, before.id = unit.id ∧ before.ready ≤ unit.ready ∧
      (unit.id = id → 0 ≤ time → time ≤ unit.ready) := by
  obtain ⟨before, hb, hid, -, hr⟩ := exists_of_mem_advanceUnit h
  have hready := hw.ready_nonneg before hb
  refine ⟨before, hb, hid, ?_, ?_⟩
  · rw [hr]
    by_cases hlt : before.id = id ∧ before.ready < time
    · rw [if_pos hlt]
      exact Quantity.le_of_lt hlt.2
    · rw [if_neg hlt]
      exact Quantity.le_refl hready
  · intro heq htime
    rw [hr]
    by_cases hlt : before.id = id ∧ before.ready < time
    · rw [if_pos hlt]
      exact Quantity.le_refl htime
    · rw [if_neg hlt]
      exact Quantity.le_of_not_lt hready htime fun hn => hlt ⟨hid.trans heq, hn⟩

theorem executionTime_eq {unit : ExecutionUnit T} (h : 0 < unit.speed) (work : Nat) :
    executionTime work unit = .ok (Quantity.ofNat work / unit.speed) := by
  rw [executionTime, if_pos h]

/-- The offer of a unit that has a speed. -/
def Offer.on (job : Job T) (notBefore : T) (unit : ExecutionUnit T) : Offer T where
  unit
  start := Quantity.larger unit.ready notBefore
  finish := Quantity.larger unit.ready notBefore + Quantity.ofNat job.length / unit.speed

theorem Offer.make_eq {unit : ExecutionUnit T} (h : 0 < unit.speed) (job : Job T) (notBefore : T) :
    Offer.make job notBefore unit = .ok (Offer.on job notBefore unit) := by
  simp [Offer.make, completionTime, executionTime_eq h, Offer.on, bind, Except.bind, pure,
    Except.pure]

theorem exists_earliestOffer {units : List (ExecutionUnit T)} (h : Working units) (job : Job T)
    (notBefore : T) :
    ∃ unit ∈ units, earliestOffer job units notBefore = .ok (Offer.on job notBefore unit) := by
  have hmap := mapM_eq_ok fun unit hu => Offer.make_eq (h.speed_pos unit hu) job notBefore
  cases hbest : Selection.best? Offer.beats (units.map (Offer.on job notBefore)) with
  | none =>
    rw [Selection.best?_eq_none_iff, List.map_eq_nil_iff] at hbest
    exact absurd hbest h.ne_nil
  | some offer =>
    obtain ⟨unit, hu, rfl⟩ := List.mem_map.mp (Selection.mem_of_best? hbest)
    refine ⟨unit, hu, ?_⟩
    simp [earliestOffer, hmap, hbest, bind, Except.bind, pure, Except.pure]

theorem exists_firstFree? {units : List (ExecutionUnit T)} (h : Working units) :
    ∃ unit ∈ units, firstFree? units = some unit := by
  cases hbest : firstFree? units with
  | none => exact absurd (Selection.best?_eq_none_iff.mp hbest) h.ne_nil
  | some unit => exact ⟨unit, Selection.mem_of_best? hbest, rfl⟩

theorem firstFree?_ready_le [LawfulQuantity T] {units : List (ExecutionUnit T)} (hw : Working units)
    {unit : ExecutionUnit T} (h : firstFree? units = some unit) :
    ∀ other ∈ units, unit.ready ≤ other.ready := by
  refine Selection.best?_le (fun a b => a.ready ≤ b.ready) ?_ ?_ ?_ ?_ h
  · intro a ha
    exact Quantity.le_refl (hw.ready_nonneg a ha)
  · intro a b c hab hbc
    exact Quantity.le_trans hab hbc
  · intro a _ b _ hp
    rw [ExecutionUnit.freeBefore, Bool.or_eq_true, Bool.and_eq_true, decide_eq_true_iff,
      decide_eq_true_iff] at hp
    rcases hp with hlt | ⟨hsame, -⟩
    · exact Quantity.le_of_lt hlt
    · exact hsame.1
  · intro a ha b hb hp
    rw [ExecutionUnit.freeBefore, Bool.or_eq_false_iff, decide_eq_false_iff_not] at hp
    exact Quantity.le_of_not_lt (hw.ready_nonneg b hb) (hw.ready_nonneg a ha) hp.1

end JobAllocation
