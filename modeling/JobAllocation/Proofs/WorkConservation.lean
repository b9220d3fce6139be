import JobAllocation.Proofs.CommitmentOrder

/-!
# On one unit list scheduling is never done later

List scheduling lets its only unit idle only while no job has arrived, and then takes one of the
jobs that arrive first. Whatever the rules, such an order of the jobs is done as early as any: its
first job can be moved to the front of any other order, and that order is done no later.
-/
namespace JobAllocation

/-- When a unit, free from `time` on, is done with jobs that it runs in turn, each once it has
arrived. -/
def doneBy (speed : Rat) : Rat → List (Job Exact) → Rat
  | time, [] => time
  | time, job :: rest => doneBy speed (max time job.arrival.value + job.length / speed) rest

/-- No job is waited for while another one could run: whichever is taken has arrived, or none of the
others arrives before it. -/
def WorkConserving (speed : Rat) : Rat → List (Job Exact) → Prop
  | _, [] => True
  | time, job :: rest =>
    (job.arrival.value ≤ time ∨ ∀ other ∈ rest, job.arrival.value ≤ other.arrival.value) ∧
      WorkConserving speed (max time job.arrival.value + job.length / speed) rest

section Orders

variable {speed : Rat} {time later : Rat} {job : Job Exact} {order other : List (Job Exact)}

theorem doneBy_mono (h : time ≤ later) (order : List (Job Exact)) :
    doneBy speed time order ≤ doneBy speed later order := by
  induction order generalizing time later with
  | nil => exact h
  | cons job rest ih => exact ih (add_le_add_left (max_le_max_right _ h) _)

/-- Of two jobs the one that can start first, or arrives first, may as well go first. -/
theorem doneBy_swap (hs : 0 ≤ speed) {next : Job Exact}
    (h : job.arrival.value ≤ max time next.arrival.value) (rest : List (Job Exact)) :
    doneBy speed time (job :: next :: rest) ≤ doneBy speed time (next :: job :: rest) := by
  refine doneBy_mono ?_ rest
  have hjob : 0 ≤ job.length / speed := div_nonneg job.length.cast_nonneg hs
  have hnext : 0 ≤ next.length / speed := div_nonneg next.length.cast_nonneg hs
  generalize (job.length : Rat) / speed = d at *
  generalize (next.length : Rat) / speed = e at *
  -- Both ways the unit is done after the two, which leaves the arrivals to compare.
  grind

/-- Moving a job to the front costs nothing if it can start there, or no job before it arrives
earlier. -/
theorem doneBy_front (hs : 0 ≤ speed) {front : List (Job Exact)}
    (h : job.arrival.value ≤ time ∨ ∀ other ∈ front, job.arrival.value ≤ other.arrival.value)
    (back : List (Job Exact)) :
    doneBy speed time (job :: (front ++ back)) ≤ doneBy speed time (front ++ job :: back) := by
  induction front generalizing time with
  | nil => exact le_refl _
  | cons next front ih =>
    have hnext : job.arrival.value ≤ max time next.arrival.value :=
      h.elim (fun h => h.trans (le_max_left _ _))
        fun h => (h next List.mem_cons_self).trans (le_max_right _ _)
    have hrest : job.arrival.value ≤ max time next.arrival.value + next.length / speed ∨
        ∀ other ∈ front, job.arrival.value ≤ other.arrival.value :=
      .inl (hnext.trans (le_add_of_nonneg_right (div_nonneg next.length.cast_nonneg hs)))
    calc doneBy speed time (job :: next :: (front ++ back))
        ≤ doneBy speed time (next :: job :: (front ++ back)) := doneBy_swap hs hnext _
      _ ≤ doneBy speed time (next :: (front ++ job :: back)) := ih hrest

/-- No order of the same jobs is done earlier than one that conserves work. -/
theorem doneBy_le_of_perm (hs : 0 ≤ speed) (h : WorkConserving speed time order)
    (hp : order.Perm other) : doneBy speed time order ≤ doneBy speed time other := by
  induction order generalizing time other with
  | nil => rw [hp.nil_eq]
  | cons job rest ih =>
    obtain ⟨hjob, hrest⟩ := h
    obtain ⟨front, back, rfl⟩ := List.append_of_mem (hp.subset List.mem_cons_self)
    have hperm : rest.Perm (front ++ back) := (hp.trans List.perm_middle).cons_inv
    have hfront : job.arrival.value ≤ time ∨
        ∀ other ∈ front, job.arrival.value ≤ other.arrival.value :=
      hjob.imp_right fun h other ho => h other (hperm.symm.subset (List.mem_append_left _ ho))
    calc doneBy speed time (job :: rest)
        ≤ doneBy speed time (job :: (front ++ back)) := ih hrest hperm
      _ ≤ doneBy speed time (front ++ job :: back) := doneBy_front hs hfront back

end Orders

/-- How much work is left does not matter, since a job is always run from its beginning. -/
theorem oneByOne_map_reset (unit : UnitId) (speed time : Rat) (order : List (Job Exact)) :
    oneByOne unit speed time (order.map Job.reset) = oneByOne unit speed time order := by
  induction order generalizing time with
  | nil => rfl
  | cons job rest ih => exact congrArg (_ :: ·) (ih _)

/-- The unit is done when its last job is. -/
theorem foldl_larger_oneByOne {speed : Rat} (hs : 0 ≤ speed) (unit : UnitId) (time : Rat)
    (order : List (Job Exact)) :
    ((oneByOne unit speed time order).map (·.finish)).foldl Quantity.larger (.rational time) =
      .rational (doneBy speed time order) := by
  induction order generalizing time with
  | nil => rfl
  | cons job rest ih =>
    rw [oneByOne, List.map_cons, List.foldl_cons, Exact.larger_rational,
      max_eq_right (le_finish_oneByOne hs time job), ih, doneBy]

theorem makespan_oneByOne {speed time : Rat} (hs : 0 ≤ speed) (ht : 0 ≤ time) (unit : UnitId)
    {order : List (Job Exact)} (hne : order ≠ []) :
    (Schedule.ofCompletions (oneByOne unit speed time order)).makespan =
      .rational (doneBy speed time order) := by
  obtain ⟨job, rest, rfl⟩ := List.exists_cons_of_ne_nil hne
  have hzero : (0 : Exact) = .rational 0 := rfl
  have hfinish := ht.trans (le_finish_oneByOne hs time job)
  rw [Schedule.makespan, Quantity.largest, Schedule.ofCompletions, oneByOne, List.map_cons,
    List.foldl_cons, hzero, Exact.larger_rational, max_eq_right hfinish,
    foldl_larger_oneByOne hs, doneBy]

theorem Exact.NoMore.antisymm {x y : Exact} (h : NoMore x y) (h' : NoMore y x) : x = y := by
  obtain ⟨a, b, rfl, rfl, hab⟩ := h
  obtain ⟨_, _, hb, ha, hba⟩ := h'
  obtain rfl := Exact.rational.inj hb
  obtain rfl := Exact.rational.inj ha
  rw [le_antisymm hab hba]

/-- No sequence of the same jobs has a smaller makespan than one that conserves work. -/
theorem makespan_noMore {unit : ExecutionUnit Exact} (hu : unit.Valid)
    {order other : List (Job Exact)}
    (h : WorkConserving unit.speed.value unit.ready.value order) (hp : order.Perm other) :
    Exact.NoMore (Schedule.ofCompletions (unit.inSequence order)).makespan
      (Schedule.ofCompletions (unit.inSequence other)).makespan := by
  have hready : 0 ≤ unit.ready.value := by
    rw [← Exact.zero_le_rational_iff, ← Exact.eq_rational_of_isFinite hu.ready_finite]
    exact hu.ready_nonneg
  rcases eq_or_ne order [] with rfl | hne
  · obtain rfl := hp.nil_eq
    exact ⟨0, 0, rfl, rfl, le_refl 0⟩
  · have hother : other ≠ [] := fun hnil => hne (hnil ▸ hp).eq_nil
    exact ⟨_, _, makespan_oneByOne hu.speed_value_pos.le hready unit.id hne,
      makespan_oneByOne hu.speed_value_pos.le hready unit.id hother,
      doneBy_le_of_perm hu.speed_value_pos.le h hp⟩

namespace ListScheduling

/-- The clock passes neither the unit nor all arrivals, so the picked job has arrived by the time
the unit is free, or none arrives before it. -/
theorem arrival_le_of_gated {now : Exact} {pending : List (Job Exact)}
    {unit : ExecutionUnit Exact} (hg : Gated now pending [unit]) {job : Job Exact}
    (harrived : job.arrival ≤ now) :
    job.arrival ≤ unit.ready ∨ ∀ other ∈ pending, job.arrival ≤ other.arrival :=
  hg.imp (fun h => Quantity.le_trans harrived (h unit List.mem_cons_self))
    fun h other ho => Quantity.le_trans harrived (h other ho)

/-- The only unit runs the picked job as soon as both are there. -/
theorem completion_of_gated {now : Exact} {pending : List (Job Exact)}
    {unit : ExecutionUnit Exact} (hw : Working [unit]) (hg : Gated now pending [unit])
    {job : Job Exact} (hm : job ∈ pending) (hnonneg : 0 ≤ job.arrival)
    (harrived : job.arrival ≤ now) {time speed : Rat}
    (harrival : job.arrival = .rational job.arrival.value)
    (hready : unit.ready = .rational time) (hspeed : unit.speed = .rational speed) :
    (Offer.on job now unit).completion job = ⟨job.id, unit.id,
      .rational (max time job.arrival.value),
      .rational (max time job.arrival.value + job.length / speed)⟩ := by
  have hstart : Quantity.larger unit.ready now = .rational (max time job.arrival.value) := by
    rw [Exact.eq_of_same (same_start hw hg hm hnonneg harrived List.mem_cons_self), hready,
      harrival, Exact.larger_rational]
    rfl
  rw [Offer.completion, Offer.on, hstart, hspeed]
  rfl

/-- Whatever the engine, its only unit runs the jobs in an order that conserves work. -/
theorem Decisions.exists_conserving {engine : RuleEngine Exact} {clock : Exact}
    {pending : List (Job Exact)} {units : List (ExecutionUnit Exact)}
    {plan : List (Completion Exact)} (h : Decisions engine clock pending units plan)
    {unit : ExecutionUnit Exact} (single : units = [unit]) (hw : Working units)
    (hd : (pending.map (·.id)).Nodup)
    (ha : ∀ job ∈ pending, 0 ≤ job.arrival ∧ job.arrival = .rational job.arrival.value)
    (hc : 0 ≤ clock) (hg : Gated clock pending units) {time speed : Rat}
    (hready : unit.ready = .rational time) (hspeed : unit.speed = .rational speed)
    (hpos : 0 < speed) :
    ∃ order, plan = oneByOne unit.id speed time order ∧ order.Perm pending ∧
      WorkConserving speed time order := by
  induction h generalizing unit time with
  | nil => exact ⟨[], rfl, .refl _, trivial⟩
  | @cons clock pending units job first offer rest picked unit_mem offer_eq _ ih =>
    subst single
    obtain rfl := List.mem_singleton.mp unit_mem
    have hnonneg : ∀ job ∈ pending, 0 ≤ job.arrival := fun job hj => (ha job hj).1
    have hnow := nonneg_decisionTime hc pending
    have hgate := gated_decisionTime hc hnonneg hg
    obtain ⟨hm, harrived⟩ := mem_of_pick? picked
    have hjob := (ha job hm).2
    have hcompletion :=
      completion_of_gated hw hgate hm (hnonneg job hm) harrived hjob hready hspeed
    rw [← offer_eq] at hcompletion
    have hfinish : offer.finish = .rational (max time job.arrival.value + job.length / speed) :=
      congrArg Completion.finish hcompletion
    have hfree : (first.advanceTo offer.finish).ready =
        .rational (max time job.arrival.value + job.length / speed) := by
      rw [hfinish, ExecutionUnit.ready_advanceTo_of_le]
      rw [hready]
      exact Exact.rational_le_iff.mpr (le_finish_oneByOne hpos.le time job)
    have hsub : without job pending ⊆ pending := List.eraseP_subset
    have hperm := cons_without_perm hd hm
    have hrest := (hperm.map _).nodup_iff.mpr hd
    rw [List.map_cons, List.nodup_cons] at hrest
    obtain ⟨order, rfl, horder, hconserves⟩ := ih (advanceUnit_single first offer.finish)
      (hw.advance _ _) hrest.2 (fun j hj => ha j (hsub hj)) (Quantity.nonneg_larger hnow _)
      (gated_next hnow hw hgate hsub) hfree ((first.advanceTo_speed _).trans hspeed)
    refine ⟨job :: order, ?_, (horder.cons job).trans hperm, ?_, hconserves⟩
    · rw [hcompletion, first.advanceTo_id, oneByOne]
    · rcases arrival_le_of_gated hgate harrived with h | h
      · rw [hready, hjob] at h
        exact .inl (Exact.rational_le_iff.mp h)
      · refine .inr fun other ho => ?_
        have hother := hsub (horder.subset ho)
        have hle := h other hother
        rw [hjob, (ha other hother).2] at hle
        exact Exact.rational_le_iff.mp hle

theorem exists_conserving_allocation (engine : RuleEngine Exact) {pool : Pool Exact}
    {unit : ExecutionUnit Exact} (valid : pool.check = .ok ()) (single : pool.units = [unit]) :
    ∃ run, ∃ order : List (Job Exact), allocateBy engine pool = .ok run ∧
      run.schedule = .ofCompletions (unit.inSequence order) ∧ order.Perm pool.freshJobs ∧
      WorkConserving unit.speed.value unit.ready.value order := by
  have hv := Pool.valid_of_check valid
  have hunit := hv.of_single single
  have hw := hv.working
  have ha : ∀ job ∈ pool.freshJobs,
      0 ≤ job.arrival ∧ job.arrival = .rational job.arrival.value := by
    intro job hj
    obtain ⟨source, hs, rfl⟩ := Pool.exists_of_mem_freshJobs hj
    exact ⟨(hv.jobs_valid source hs).arrival_nonneg,
      Exact.eq_rational_of_isFinite (hv.jobs_valid source hs).arrival_finite⟩
  obtain ⟨plan, hrun, hdecisions⟩ :=
    exists_decisions engine hw hv.fresh_arrival_nonneg (nonneg_firstReady hw)
  obtain ⟨order, rfl, horder, hconserves⟩ := hdecisions.exists_conserving single hw
    (pool.map_id_freshJobs ▸ hv.jobs_distinct) ha (nonneg_firstReady hw)
    (gated_initial pool.freshJobs hw) (Exact.eq_rational_of_isFinite hunit.ready_finite)
    (Exact.eq_rational_of_isFinite hunit.speed_finite) hunit.speed_value_pos
  exact ⟨_, order, allocateBy_of_run valid hrun, rfl, horder, hconserves⟩

end ListScheduling

/-- On one unit every engine completes each job once and makes the same makespan, and no order of
the jobs has a smaller one. -/
theorem list_scheduling_minimises_makespan (pool : Pool Exact) (unit : ExecutionUnit Exact)
    (valid : pool.check = .ok ()) (single : pool.units = [unit]) :
    ∃ least,
      (∀ engine : RuleEngine Exact, ∃ run, ListScheduling.allocateBy engine pool = .ok run ∧
        (run.schedule.completions.map (·.job)).Perm (pool.jobs.map (·.id)) ∧
        run.schedule.makespan = least) ∧
      (∀ policy : ListScheduling, ∃ run, policy.allocate pool = .ok run ∧
        (run.schedule.completions.map (·.job)).Perm (pool.jobs.map (·.id)) ∧
        run.schedule.makespan = least) ∧
      ∀ order : List (Job Exact), order.Perm pool.jobs →
        ∃ plan, Execution.execute ⟨order.map fun job => (job.id, unit.id)⟩ pool.jobs pool.units =
            .ok plan ∧
          plan.map (·.job) = order.map (·.id) ∧
          Exact.NoMore least (Schedule.ofCompletions plan).makespan := by
  have hv := Pool.valid_of_check valid
  have hunit := hv.of_single single
  obtain ⟨_, first, -, -, hfirst, hconserves⟩ :=
    ListScheduling.exists_conserving_allocation [] valid single
  have hengine (engine : RuleEngine Exact) : ∃ run,
      ListScheduling.allocateBy engine pool = .ok run ∧
        (run.schedule.completions.map (·.job)).Perm (pool.jobs.map (·.id)) ∧
        run.schedule.makespan = (Schedule.ofCompletions (unit.inSequence first)).makespan := by
    obtain ⟨run, order, hok, hschedule, horder, hagain⟩ :=
      ListScheduling.exists_conserving_allocation engine valid single
    have hp := horder.trans hfirst.symm
    refine ⟨run, hok, ListScheduling.jobs_perm_of_allocateBy valid hok,
      hschedule ▸ Exact.NoMore.antisymm ?_ ?_⟩
    · exact makespan_noMore hunit hagain hp
    · exact makespan_noMore hunit hconserves hp.symm
  refine ⟨_, hengine, fun policy => hengine policy.rules.engine, fun listed hl => ?_⟩
  obtain ⟨other, hother, hexecute⟩ := Execution.exists_sequence hv single hl
  have hreset : unit.inSequence (other.map Job.reset) = unit.inSequence other :=
    oneByOne_map_reset ..
  refine ⟨_, hexecute, Execution.map_job_of_order hexecute,
    hreset ▸ makespan_noMore hunit hconserves ?_⟩
  exact hfirst.trans (hother.map Job.reset).symm

/-- Three jobs, of which the long one arrives while another runs and the last after a gap. -/
def threeStaggered : Pool Exact where
  jobs := [⟨0, "early", 10, .rational 1, some (.rational 90), 10⟩,
    ⟨1, "long", 40, .rational 2, none, 40⟩, ⟨2, "late", 5, .rational 30, some (.rational 31), 5⟩]
  units := [⟨0, "only", .rational 5, .rational 0⟩]

theorem list_scheduling_minimises_makespan_threeStaggered :
    threeStaggered.check = .ok () ∧
      ∃ least,
        (∃ run, ListScheduling.edf.allocate threeStaggered = .ok run ∧
          (run.schedule.completions.map (·.job)).Perm [0, 1, 2] ∧
          run.schedule.makespan = least) ∧
        (∃ run, ListScheduling.allocateBy [] threeStaggered = .ok run ∧
          (run.schedule.completions.map (·.job)).Perm [0, 1, 2] ∧
          run.schedule.makespan = least) ∧
        ∃ plan, Execution.execute ⟨[(2, 0), (1, 0), (0, 0)]⟩ threeStaggered.jobs
            threeStaggered.units = .ok plan ∧
          plan.map (·.job) = [2, 1, 0] ∧
          Exact.NoMore least (Schedule.ofCompletions plan).makespan := by
  have hcheck : threeStaggered.check = .ok () :=
    threeStaggered.check_eq_ok_iff.mpr (by decide +kernel)
  obtain ⟨least, hengine, hpolicy, hleast⟩ := list_scheduling_minimises_makespan threeStaggered
    ⟨0, "only", .rational 5, .rational 0⟩ hcheck rfl
  exact ⟨hcheck, least, hpolicy .edf, hengine [],
    hleast threeStaggered.jobs.reverse (List.reverse_perm _)⟩

end JobAllocation
