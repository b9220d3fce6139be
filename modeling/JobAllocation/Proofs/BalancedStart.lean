import JobAllocation.Proofs.BusyTimes
import JobAllocation.Proofs.InitialAssignments
import JobAllocation.Proofs.RealizedMakespan
import Mathlib.Tactic.FieldSimp

/-!
# The balanced start

Giving each job in turn to the unit with the least work so far keeps the units level: before its
last job no unit had more work than any unit has in the end. If nothing is rounded and all units are
equally fast, that alone keeps the makespan within Graham's bound of the makespan of every complete
assignment. The competitor is at least as long as its longest job and as the mean of all units.
-/
namespace JobAllocation

variable {T : Type} [Quantity T]

namespace Assignment

/-- The time that the jobs of a unit take, summed in the order in which they are listed. -/
def loadOf (a : Assignment) (jobs : List (Job T)) (unit : ExecutionUnit T) : T :=
  doneAt jobs unit 0 (a.jobsOf unit.id)

/-- The load of a unit before its last job. -/
def loadBeforeLast (a : Assignment) (jobs : List (Job T)) (unit : ExecutionUnit T) : T :=
  doneAt jobs unit 0 (a.jobsOf unit.id).dropLast

/-- No unit that has jobs had a larger load before its last one than any unit has in the end. -/
def Level (a : Assignment) (jobs : List (Job T)) (units : List (ExecutionUnit T)) : Prop :=
  ∀ unit ∈ units, a.jobsOf unit.id ≠ [] → ∀ other ∈ units,
    a.loadBeforeLast jobs unit ≤ a.loadOf jobs other

end Assignment

namespace InitialAssignment

variable {jobs rest : List (Job T)} {units : List (ExecutionUnit T)} {a : Assignment} {job : Job T}

omit [Quantity T] in
theorem jobsOf_assign_self (hn : (a.jobs ++ (job :: rest).map (·.id)).Nodup) (unit : UnitId) :
    (a.assign job.id unit).jobsOf unit = a.jobsOf unit ++ [job.id] := by
  simp [Assignment.jobsOf, entries_assign_next hn]

omit [Quantity T] in
theorem jobsOf_assign_other (hn : (a.jobs ++ (job :: rest).map (·.id)).Nodup)
    {unit other : UnitId} (hne : unit ≠ other) :
    (a.assign job.id unit).jobsOf other = a.jobsOf other := by
  simp [Assignment.jobsOf, entries_assign_next hn, hne]

section Loads

variable (hd : (jobs.map (·.id)).Nodup) (hj : job ∈ jobs)
  (hn : (a.jobs ++ (job :: rest).map (·.id)).Nodup)
include hd hj hn

theorem loadOf_assign_self (unit : ExecutionUnit T) :
    (a.assign job.id unit.id).loadOf jobs unit =
      a.loadOf jobs unit + Quantity.ofNat job.length / unit.speed := by
  rw [Assignment.loadOf, jobsOf_assign_self hn, doneAt, List.map_append, List.foldl_append,
    List.map_singleton, timeTaken_of_mem hd hj]
  rfl

/-- No load goes down. -/
theorem loadOf_le_assign [LawfulQuantity T] (hw : Working units) (unit : UnitId)
    {other : ExecutionUnit T} (ho : other ∈ units) :
    a.loadOf jobs other ≤ (a.assign job.id unit).loadOf jobs other := by
  have hload : 0 ≤ a.loadOf jobs other := Quantity.nonneg_total (timeTaken_nonneg hw ho _)
  by_cases hid : unit = other.id
  · rw [hid, loadOf_assign_self hd hj hn]
    exact LawfulQuantity.le_add hload (hw.work_nonneg ho job.length)
  · rw [Assignment.loadOf, Assignment.loadOf, jobsOf_assign_other hn hid]
    exact Quantity.le_refl hload

end Loads

theorem lightest_le [LawfulQuantity T] {loaded : List (Loaded T)}
    (hnonneg : ∀ l ∈ loaded, 0 ≤ l.load) {lightest : Loaded T} {i : Nat}
    (hbest : Selection.best? (fun a b => a.1.lighter b.1) loaded.zipIdx = some (lightest, i)) :
    ∀ l ∈ loaded, lightest.load ≤ l.load := by
  have hload : ∀ c ∈ loaded.zipIdx, 0 ≤ c.1.load := fun c hc =>
    hnonneg c.1 (List.fst_mem_of_mem_zipIdx hc)
  have hleast : ∀ c ∈ loaded.zipIdx, lightest.load ≤ c.1.load := by
    refine Selection.best?_le (fun a b : Loaded T × Nat => a.1.load ≤ b.1.load)
      (fun c hc => Quantity.le_refl (hload c hc)) (fun _ _ _ => Quantity.le_trans) ?_ ?_ hbest
    · intro c hc d hd h
      rcases Bool.or_eq_true_iff.mp h with hlt | htied
      · exact Quantity.le_of_lt (of_decide_eq_true hlt)
      · exact (of_decide_eq_true (Bool.and_eq_true_iff.mp htied).1).1
    · intro c hc d hd h
      have hlt := of_decide_eq_false (Bool.or_eq_false_iff.mp h).1
      exact Quantity.le_of_not_lt (hload d hd) (hload c hc) hlt
  intro l hl
  obtain ⟨k, hk⟩ := List.mem_iff_getElem?.mp hl
  exact hleast (l, k) (List.mem_zipIdx_iff_getElem?.mpr hk)

omit [Quantity T] in
/-- What is written for one unit changes nothing for units with other numbers. -/
theorem set_map_eq {B : Type} (hd : (units.map (·.id)).Nodup) {f g : ExecutionUnit T → B} {i : Nat}
    {unit : ExecutionUnit T} (hi : units[i]? = some unit)
    (hother : ∀ other ∈ units, unit.id ≠ other.id → g other = f other) :
    (units.map f).set i (g unit) = units.map g := by
  refine List.ext_getElem? fun k => ?_
  rw [List.getElem?_set, List.length_map, List.getElem?_map, List.getElem?_map]
  by_cases hik : i = k
  · subst hik
    rw [if_pos rfl, if_pos (List.getElem?_eq_some_iff.mp hi).1, hi]
    rfl
  · rw [if_neg hik]
    cases hk : units[k]? with
    | none => rfl
    | some other =>
      have hne : unit.id ≠ other.id := fun heq => hik (index_eq_of_key hd hi hk heq)
      exact congrArg some (hother other (List.mem_of_getElem? hk) hne).symm

/-- What holds while the balanced assignment is filled: the jobs before the ones that are left are
bound in their order, the loads are those of the assignment so far, and it is level. -/
structure Filling (jobs rest : List (Job T)) (units : List (ExecutionUnit T))
    (loaded : List (Loaded T)) (a : Assignment) : Prop where
  suffix : rest <:+ jobs
  jobs_eq : a.jobs ++ rest.map (·.id) = jobs.map (·.id)
  loaded_eq : loaded = units.map fun unit => ⟨unit, a.loadOf jobs unit⟩
  level : a.Level jobs units

theorem filling_start (jobs : List (Job T)) (units : List (ExecutionUnit T)) :
    Filling jobs jobs units (units.map fun unit => ⟨unit, 0⟩) .empty where
  suffix := List.suffix_rfl
  jobs_eq := rfl
  loaded_eq := rfl
  level _ _ hne := absurd rfl hne

theorem Filling.give [LawfulQuantity T] {loaded : List (Loaded T)} {lightest : Loaded T} {i : Nat}
    (h : Filling jobs (job :: rest) units loaded a) (hd : (jobs.map (·.id)).Nodup)
    (hw : Working units)
    (hbest : Selection.best? (fun a b => a.1.lighter b.1) loaded.zipIdx = some (lightest, i)) :
    Filling jobs rest units (loaded.set i (lightest.give job))
      (a.assign job.id lightest.unit.id) := by
  obtain ⟨hsuffix, hjobs, rfl, hlevel⟩ := h
  have hn : (a.jobs ++ (job :: rest).map (·.id)).Nodup := hjobs ▸ hd
  have hj : job ∈ jobs := hsuffix.subset List.mem_cons_self
  have hat := List.mem_zipIdx_iff_getElem?.mp (Selection.mem_of_best? hbest)
  rw [List.getElem?_map, Option.map_eq_some_iff] at hat
  obtain ⟨unit, hunit, rfl⟩ := hat
  have hleast := lightest_le (List.forall_mem_map.mpr fun other ho =>
    Quantity.nonneg_total (timeTaken_nonneg hw ho _)) hbest
  refine ⟨(List.suffix_cons job rest).trans hsuffix, (jobs_assign_next hn _).trans hjobs, ?_,
    fun own hown hne other ho => ?_⟩
  · rw [Loaded.give, ← loadOf_assign_self hd hj hn unit]
    refine set_map_eq hw.distinct (f := fun other => ⟨other, a.loadOf jobs other⟩)
      (g := fun other => (⟨other, (a.assign job.id unit.id).loadOf jobs other⟩ : Loaded T)) hunit
      fun other _ hne => ?_
    rw [Assignment.loadOf, jobsOf_assign_other hn hne, Assignment.loadOf]
  · have hgrown := loadOf_le_assign hd hj hn hw unit.id ho
    refine Quantity.le_trans ?_ hgrown
    by_cases hid : unit.id = own.id
    -- The lightest unit had its load before this job, and no other had less.
    · rw [Assignment.loadBeforeLast, ← hid, jobsOf_assign_self hn, List.dropLast_concat]
      obtain rfl := List.inj_on_of_nodup_map hw.distinct (List.mem_of_getElem? hunit) hown hid
      exact hleast _ (List.mem_map_of_mem ho)
    · rw [jobsOf_assign_other hn hid] at hne
      rw [Assignment.loadBeforeLast, jobsOf_assign_other hn hid]
      exact hlevel own hown hne other ho

theorem exists_level_balanced [LawfulQuantity T] {pool : Pool T} (hv : pool.Valid) :
    ∃ a, balanced pool.jobs pool.units = .ok a ∧ a.jobs = pool.jobs.map (·.id) ∧
      a.Complete pool.jobs pool.units ∧ a.Level pool.jobs pool.units := by
  obtain ⟨a, ha, hjobs, hcomplete⟩ :=
    exists_complete_balanced hv.jobs_distinct hv.units_ne_nil hv.speed_pos
  obtain ⟨b, last, hb, hfilled⟩ := exists_balance_of_kept
    (P := fun rest loaded a => Filling pool.jobs rest pool.units loaded a)
    hv.units_ne_nil hv.speed_pos
    (fun _ hbest h => h.give hv.jobs_distinct hv.working hbest)
    (map_unit_loaded pool.units fun _ => 0) (filling_start pool.jobs pool.units)
  obtain rfl := Except.ok.inj (hb.symm.trans ha)
  exact ⟨b, ha, hjobs, hcomplete, hfilled.level⟩

end InitialAssignment

/-- The jobs of each unit take rational times, and each job the same on every unit. -/
structure Uniform (jobs : List (Job Exact)) (units : List (ExecutionUnit Exact))
    (time : JobId → Rat) : Prop where
  nonneg : ∀ id, 0 ≤ time id
  takes : ∀ unit ∈ units, ∀ id, timeTaken jobs unit id = .rational (time id)

theorem Pool.Valid.exists_uniform {pool : Pool Exact} (hv : pool.Valid)
    (hspeed : ∀ unit ∈ pool.units, ∀ other ∈ pool.units, unit.speed = other.speed) :
    ∃ time, Uniform pool.jobs pool.units time := by
  obtain ⟨first, hfirst⟩ := List.exists_mem_of_ne_nil _ hv.units_ne_nil
  have hrational (id : JobId) :
      ∃ q : Rat, 0 ≤ q ∧ timeTaken pool.jobs first id = .rational q := by
    rw [timeTaken]
    cases findJob? pool.jobs id with
    | none => exact ⟨0, Rat.le_refl, rfl⟩
    | some job => exact Exact.exists_work job.length (hv.speed_pos first hfirst)
  choose time hnonneg htakes using hrational
  refine ⟨time, hnonneg, fun unit hu id => ?_⟩
  rw [timeTaken_congr (hspeed unit hu first hfirst), htakes]

/-- How long a unit takes for its jobs. -/
def Assignment.timeOn (a : Assignment) (time : JobId → Rat) (unit : ExecutionUnit Exact) : Rat :=
  ((a.jobsOf unit.id).map time).sum

/-- The longest time that a unit takes, zero if no unit takes any. -/
structure Assignment.Longest (a : Assignment) (units : List (ExecutionUnit Exact))
    (time : JobId → Rat) (value : Rat) : Prop where
  nonneg : 0 ≤ value
  le : ∀ unit ∈ units, a.timeOn time unit ≤ value
  attained : value = 0 ∨ ∃ unit ∈ units, value = a.timeOn time unit

namespace Uniform

variable {jobs : List (Job Exact)} {units : List (ExecutionUnit Exact)} {time : JobId → Rat}
  {a : Assignment} {unit : ExecutionUnit Exact}

theorem doneAt_eq (h : Uniform jobs units time) (hu : unit ∈ units) (ids : List JobId) :
    doneAt jobs unit 0 ids = .rational (ids.map time).sum :=
  Exact.total_map_eq fun id _ => h.takes unit hu id

theorem exists_makespan {pool : Pool Exact} (h : Uniform pool.jobs pool.units time)
    (hv : pool.Valid) (ha : a.Complete pool.jobs pool.units) :
    ∃ value, LocalSearch.makespan a pool.jobs pool.units = .ok (.rational value) ∧
      a.Longest pool.units time value := by
  obtain ⟨p, hp⟩ := LocalSearch.exists_poses hv.jobs_distinct hv.units_distinct hv.speed_pos
  have hplaced := hp.complete ha
  obtain ⟨x, hx⟩ := LocalSearch.Problem.exists_describes hplaced
  have hload (u : p.Position) : p.load x u = .rational (a.timeOn time (p.units.get u)) := by
    have hu : p.units.get u ∈ pool.units := hp.units_perm.subset (List.get_mem _ _)
    -- The search sums in ascending order of jobs, which changes nothing where nothing is rounded.
    rw [LocalSearch.Problem.load_eq hp hplaced hx, LocalSearch.Problem.unitId,
      ← a.sumsAgree_exact pool _ hu]
    exact h.doneAt_eq hu _
  have hnonneg := LocalSearch.Problem.nonneg_loads (hp.timed hv) hx.length_eq
  have hle (u : p.Position) : p.load x u ≤ p.makespan x :=
    Quantity.le_largest hnonneg (List.mem_map_of_mem (List.mem_finRange u))
  have hmem : p.makespan x ∈ 0 :: p.loads x :=
    (Quantity.foldl_larger_mem (p.loads x) LawfulQuantity.zero_le_zero).2
  obtain ⟨value, hvalue, hattained⟩ : ∃ value, p.makespan x = .rational value ∧
      (value = 0 ∨ ∃ unit ∈ pool.units, value = a.timeOn time unit) := by
    rcases List.mem_cons.mp hmem with hzero | hm
    · exact ⟨0, hzero, .inl rfl⟩
    · obtain ⟨u, -, hu⟩ := List.mem_map.mp hm
      exact ⟨_, hu.symm.trans (hload u), .inr
        ⟨p.units.get u, hp.units_perm.subset (List.get_mem _ _), rfl⟩⟩
  refine ⟨value, hvalue ▸ LocalSearch.Problem.makespan_eq hp hplaced hx, ?_, fun unit hu => ?_,
    hattained⟩
  · exact Exact.zero_le_rational_iff.mp (hvalue ▸ Quantity.nonneg_largest _)
  · obtain ⟨u, rfl⟩ := List.mem_iff_get.mp (hp.units_perm.symm.subset hu)
    exact Exact.rational_le_iff.mp (hvalue ▸ hload u ▸ hle u)

/-- All units together take as long as all jobs. -/
theorem sum_timeOn (ha : a.Complete jobs units) (hd : (units.map (·.id)).Nodup) :
    (units.map (a.timeOn time)).sum = (jobs.map fun job => time job.id).sum := by
  have hbound : (a.entries.map fun entry => time entry.1).sum =
      (jobs.map fun job => time job.id).sum := by
    have hperm := ha.jobs_perm.map time
    rw [Assignment.jobs, List.map_map, List.map_map] at hperm
    exact hperm.sum_eq
  rw [← hbound, ← sum_map_sum_filter (·.2) (fun entry => time entry.1) hd fun entry he =>
    ha.units_known entry he, List.map_map]
  refine congrArg List.sum (List.map_congr_left fun unit _ => ?_)
  rw [Assignment.timeOn, Assignment.jobsOf, List.map_map]
  rfl

/-- A complete assignment takes as long as any one job. -/
theorem time_le (h : Uniform jobs units time) (ha : a.Complete jobs units) {value : Rat}
    (hl : a.Longest units time value) {job : Job Exact} (hj : job ∈ jobs) :
    time job.id ≤ value := by
  obtain ⟨unit, hu, hunit⟩ := ha.exists_unitOf? hj
  have hmem : job.id ∈ a.jobsOf unit.id :=
    Assignment.mem_jobsOf_iff.mpr (Assignment.mem_of_unitOf? hunit)
  have hnonneg : ∀ t ∈ (a.jobsOf unit.id).map time, 0 ≤ t :=
    List.forall_mem_map.mpr fun id _ => h.nonneg id
  exact (List.single_le_sum hnonneg _ (List.mem_map_of_mem hmem)).trans (hl.le unit hu)

/-- A complete assignment takes as long as the units do on average. -/
theorem sum_time_le (ha : a.Complete jobs units) (hd : (units.map (·.id)).Nodup) {value : Rat}
    (hl : a.Longest units time value) :
    (jobs.map fun job => time job.id).sum ≤ units.length * value := by
  have hle := List.sum_le_card_nsmul (units.map (a.timeOn time)) value
    (List.forall_mem_map.mpr hl.le)
  rwa [sum_timeOn ha hd, List.length_map, nsmul_eq_mul] at hle

/-- In a level assignment every unit has at least the time that one of them has before its last job,
and that one has the last job as well. -/
theorem before_last_le (h : Uniform jobs units time) (ha : a.Complete jobs units)
    (hd : (units.map (·.id)).Nodup) (hlevel : a.Level jobs units) (hu : unit ∈ units)
    {front : List JobId} {last : JobId} (hjobs : a.jobsOf unit.id = front ++ [last]) :
    units.length * (front.map time).sum + time last ≤
      (jobs.map fun job => time job.id).sum := by
  have hbefore : ∀ other ∈ units, (front.map time).sum ≤ a.timeOn time other := by
    intro other ho
    have hle := hlevel unit hu (by simp [hjobs]) other ho
    rw [Assignment.loadBeforeLast, hjobs, List.dropLast_concat, h.doneAt_eq hu,
      Assignment.loadOf, h.doneAt_eq ho] at hle
    exact Exact.rational_le_iff.mp hle
  have hown : a.timeOn time unit = (front.map time).sum + time last := by
    simp [Assignment.timeOn, hjobs]
  rw [← sum_timeOn ha hd]
  -- Only this unit has the last job, so it is counted apart from those on both of its sides.
  obtain ⟨left, right, rfl⟩ := List.append_of_mem hu
  have hleft := List.card_nsmul_le_sum (left.map (a.timeOn time)) _
    (List.forall_mem_map.mpr fun other ho => hbefore other (List.mem_append_left _ ho))
  have hright := List.card_nsmul_le_sum (right.map (a.timeOn time)) _
    (List.forall_mem_map.mpr fun other ho =>
      hbefore other (List.mem_append_right _ (List.mem_cons_of_mem _ ho)))
  rw [List.length_map, nsmul_eq_mul] at hleft hright
  rw [List.length_append, List.length_cons, List.map_append, List.map_cons, List.sum_append,
    List.sum_cons, hown]
  push_cast
  linarith

/-- The unit that takes longest has its last job, which the competitor has as well, on top of what
every unit has. -/
theorem mul_longest_le (h : Uniform jobs units time) (hne : units ≠ [])
    (hd : (units.map (·.id)).Nodup) (ha : a.Complete jobs units) (hlevel : a.Level jobs units)
    {start : Rat} (hstart : a.Longest units time start) {other : Assignment}
    (ho : other.Complete jobs units) {best : Rat} (hbest : other.Longest units time best) :
    units.length * start ≤ (2 * units.length - 1) * best := by
  have hm : (1 : Rat) ≤ units.length := Nat.one_le_cast.mpr (List.length_pos_iff.mpr hne)
  have hnothing : 0 ≤ (2 * units.length - 1) * best :=
    mul_nonneg (by linarith) hbest.nonneg
  rcases hstart.attained with rfl | ⟨unit, hu, rfl⟩
  · linarith
  · rcases List.eq_nil_or_concat (a.jobsOf unit.id) with hnil | ⟨front, last, hjobs⟩
    · simpa [Assignment.timeOn, hnil] using hnothing
    · rw [List.concat_eq_append] at hjobs
      obtain ⟨job, hj, rfl⟩ : ∃ job ∈ jobs, job.id = last := by
        have hentry : (last, unit.id) ∈ a.entries :=
          Assignment.mem_jobsOf_iff.mp (by simp [hjobs])
        exact List.mem_map.mp (ha.jobs_perm.subset (List.mem_map_of_mem hentry))
      have hown : a.timeOn time unit = (front.map time).sum + time job.id := by
        simp [Assignment.timeOn, hjobs]
      have hbefore := h.before_last_le ha hd hlevel hu hjobs
      have hmean := sum_time_le ho hd hbest
      have hlast := mul_le_mul_of_nonneg_left (h.time_le ho hbest hj) (sub_nonneg.mpr hm)
      rw [hown]
      linarith

theorem longest_le (h : Uniform jobs units time) (hne : units ≠ [])
    (hd : (units.map (·.id)).Nodup) (ha : a.Complete jobs units) (hlevel : a.Level jobs units)
    {start : Rat} (hstart : a.Longest units time start) {other : Assignment}
    (ho : other.Complete jobs units) {best : Rat} (hbest : other.Longest units time best) :
    start ≤ (2 - 1 / units.length) * best := by
  have hpos : (0 : Rat) < units.length := Nat.cast_pos.mpr (List.length_pos_iff.mpr hne)
  have hfactor : (2 - 1 / units.length) * best = (2 * units.length - 1) * best / units.length := by
    field_simp
  rw [hfactor, le_div_iff₀ hpos, mul_comm]
  exact h.mul_longest_le hne hd ha hlevel hstart ho hbest

end Uniform

/-- The balanced start is level and within Graham's bound. It binds every job once, in the order of
the input, and before its last job no unit had a larger load than any unit has in the end. In exact
arithmetic, on `m` units of one speed, its makespan is at most `2 - 1 / m` times that of any
complete assignment. -/
theorem balanced_start_within_graham :
    (∀ pool : Pool Binary64, pool.check = .ok () →
      ∃ a, InitialAssignment.balanced pool.jobs pool.units = .ok a ∧
        a.jobs = pool.jobs.map (·.id) ∧ a.Complete pool.jobs pool.units ∧
        a.Level pool.jobs pool.units) ∧
      ∀ pool : Pool Exact, pool.check = .ok () →
        (∀ unit ∈ pool.units, ∀ other ∈ pool.units, unit.speed = other.speed) →
          ∃ a start, InitialAssignment.balanced pool.jobs pool.units = .ok a ∧
            LocalSearch.makespan a pool.jobs pool.units = .ok (.rational start) ∧
            ∀ other : Assignment, other.Complete pool.jobs pool.units →
              ∃ best, LocalSearch.makespan other pool.jobs pool.units = .ok (.rational best) ∧
                start ≤ (2 - 1 / pool.units.length) * best := by
  constructor
  · intro pool valid
    exact InitialAssignment.exists_level_balanced (Pool.valid_of_check valid)
  · intro pool valid hspeed
    have hv := Pool.valid_of_check valid
    obtain ⟨time, huniform⟩ := hv.exists_uniform hspeed
    obtain ⟨a, ha, -, hcomplete, hlevel⟩ := InitialAssignment.exists_level_balanced hv
    obtain ⟨start, hstart, hlongest⟩ := huniform.exists_makespan hv hcomplete
    refine ⟨a, start, ha, hstart, fun other ho => ?_⟩
    obtain ⟨best, hbest, hother⟩ := huniform.exists_makespan hv ho
    exact ⟨best, hbest, huniform.longest_le hv.units_ne_nil hv.units_distinct hcomplete hlevel
      hlongest ho hother⟩

/-- The longest of three jobs comes last, and two equal units are level before it. -/
def longLast {T : Type} [Quantity T] : Pool T where
  jobs := [⟨0, "first", 100, 0, none, 100⟩, ⟨1, "second", 100, 0, none, 100⟩,
    ⟨2, "long", 200, 0, none, 200⟩]
  units := [⟨0, "left", Quantity.ofNat 100, 0⟩, ⟨1, "right", Quantity.ofNat 100, 0⟩]

/-- It takes three seconds where two are possible, as long as the bound allows on two units. -/
theorem balanced_start_within_graham_longLast :
    (longLast : Pool Binary64).check = .ok () ∧ (longLast : Pool Exact).check = .ok () ∧
      (∃ a, InitialAssignment.balanced (longLast : Pool Binary64).jobs longLast.units = .ok a ∧
        a.jobs = [0, 1, 2] ∧ a.Level (longLast : Pool Binary64).jobs longLast.units) ∧
      ∃ a start best,
        InitialAssignment.balanced (longLast : Pool Exact).jobs longLast.units = .ok a ∧
          LocalSearch.makespan a (longLast : Pool Exact).jobs longLast.units =
            .ok (.rational start) ∧
          LocalSearch.makespan ⟨[(0, 0), (1, 0), (2, 1)]⟩ (longLast : Pool Exact).jobs
            longLast.units = .ok (.rational best) ∧
          start ≤ (2 - 1 / 2) * best ∧ start = 3 ∧ best = 2 := by
  have hrounded : (longLast : Pool Binary64).check = .ok () :=
    longLast.check_eq_ok_iff.mpr (by decide +kernel)
  have hexact : (longLast : Pool Exact).check = .ok () :=
    longLast.check_eq_ok_iff.mpr (by decide +kernel)
  obtain ⟨hlevel, hwithin⟩ := balanced_start_within_graham
  obtain ⟨a, ha, hjobs, -, hlevel⟩ := hlevel longLast hrounded
  obtain ⟨b, start, hb, hstart, hbound⟩ := hwithin longLast hexact (by decide +kernel)
  obtain ⟨best, hbest, hle⟩ := hbound ⟨[(0, 0), (1, 0), (2, 1)]⟩ ⟨.refl _, by decide⟩
  have hposes : LocalSearch.Poses (longLast : Pool Exact).jobs longLast.units
      ⟨longLast.jobs, longLast.units⟩ :=
    LocalSearch.poses_of_sorted (by decide) (by decide) (by decide +kernel)
  have hspread : InitialAssignment.balanced (longLast : Pool Exact).jobs longLast.units =
      .ok ⟨[(0, 0), (1, 1), (2, 0)]⟩ := by decide +kernel
  obtain rfl := Except.ok.inj (hb.symm.trans hspread)
  have hthree : LocalSearch.makespan ⟨[(0, 0), (1, 1), (2, 0)]⟩ (longLast : Pool Exact).jobs
      longLast.units = .ok (.rational 3) := by
    rw [LocalSearch.makespan, hposes.ofInput_eq]
    decide +kernel
  have htwo : LocalSearch.makespan ⟨[(0, 0), (1, 0), (2, 1)]⟩ (longLast : Pool Exact).jobs
      longLast.units = .ok (.rational 2) := by
    rw [LocalSearch.makespan, hposes.ofInput_eq]
    decide +kernel
  exact ⟨hrounded, hexact, ⟨a, ha, hjobs, hlevel⟩, _, start, best, hb, hstart, hbest, hle,
    Exact.rational.inj (Except.ok.inj (hstart.symm.trans hthree)),
    Exact.rational.inj (Except.ok.inj (hbest.symm.trans htwo))⟩

end JobAllocation
