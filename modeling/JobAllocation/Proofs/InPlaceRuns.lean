import JobAllocation.InPlace
import JobAllocation.Proofs.BatchRun
import JobAllocation.Proofs.HillClimbingRun
import JobAllocation.Proofs.ListRun
import JobAllocation.Proofs.RoundRobinTrace

/-!
# Allocation in place is all or nothing

A call that works in place leaves the pool that the allocation describes, and a call that fails
leaves the pool as it was. It fails before it writes, or not at all: once the pool has passed the
check, every offer is made, some unit is always free first and every estimate succeeds.
-/
namespace JobAllocation

variable {T : Type}

namespace InPlace

variable {α β : Type}

@[simp] theorem on_pure (a : α) (pool : Pool T) : (pure a : InPlace T α).on pool = (.ok a, pool) :=
  rfl

@[simp] theorem on_get (pool : Pool T) : (get : InPlace T (Pool T)).on pool = (.ok pool, pool) :=
  rfl

@[simp] theorem on_modify (f : Pool T → Pool T) (pool : Pool T) :
    (modify f : InPlace T Unit).on pool = (.ok (), f pool) := rfl

@[simp] theorem on_throw (e : AllocationError T) (pool : Pool T) :
    (throw e : InPlace T α).on pool = (.error e, pool) := rfl

/-- What only reads its arguments leaves the pool alone. -/
@[simp] theorem on_lift (outcome : Except (AllocationError T) α) (pool : Pool T) :
    (liftM outcome : InPlace T α).on pool = (outcome, pool) := rfl

/-- A failure ends the work, with the pool as it is then. -/
theorem on_bind (work : InPlace T α) (next : α → InPlace T β) (pool : Pool T) :
    (work >>= next).on pool =
      match work.on pool with
      | (.ok a, later) => (next a).on later
      | (.error e, later) => (.error e, later) := by
  unfold on ExceptT.run
  simp only [bind, ExceptT.bind, ExceptT.mk, StateT.bind, ExceptT.bindCont]
  cases work pool with
  | mk outcome later => cases outcome <;> rfl

theorem on_bind_ok {work : InPlace T α} {next : α → InPlace T β} {pool later : Pool T} {a : α}
    (h : work.on pool = (.ok a, later)) : (work >>= next).on pool = (next a).on later := by
  rw [on_bind, h]

theorem on_bind_lift_ok {outcome : Except (AllocationError T) α} {a : α} (h : outcome = .ok a)
    (next : α → InPlace T β) (pool : Pool T) :
    ((liftM outcome : InPlace T α) >>= next).on pool = (next a).on pool := by
  rw [on_bind, on_lift, h]

theorem on_bind_lift_error {outcome : Except (AllocationError T) α} {e : AllocationError T}
    (h : outcome = .error e) (next : α → InPlace T β) (pool : Pool T) :
    ((liftM outcome : InPlace T α) >>= next).on pool = (.error e, pool) := by
  rw [on_bind, on_lift, h]

/-- An input that passes the check is reset before anything else is done with it. -/
theorem on_checked [Quantity T] {pool : Pool T} (h : pool.check = .ok ())
    (next : Pool T → InPlace T α) :
    (do (← get).check; modify Pool.reset; next (← get) : InPlace T α).on pool =
      (next pool.reset).on pool.reset := by
  rw [on_bind_ok (on_get pool), on_bind_lift_ok h, on_bind_ok (on_modify _ pool),
    on_bind_ok (on_get _)]

theorem on_refused [Quantity T] {pool : Pool T} {e : AllocationError T} (h : pool.check = .error e)
    (next : Unit → InPlace T α) :
    (do next (← (← get).check) : InPlace T α).on pool = (.error e, pool) :=
  (on_bind_ok (on_get pool)).trans (on_bind_lift_error h next pool)

end InPlace

open InPlace

/-- The work of a completed job is written off as the completion is committed. -/
theorem settle_cons (c : Completion T) (rest : List (Completion T)) (jobs : List (Job T)) :
    (Schedule.ofCompletions (c :: rest)).settle jobs =
      (Schedule.ofCompletions rest).settle
        (jobs.map fun j => if j.id = c.job then { j with remaining := 0 } else j) := by
  unfold Schedule.settle Schedule.ofCompletions
  rw [List.map_map]
  refine List.map_congr_left fun job _ => ?_
  rw [Function.comp_apply, List.any_cons]
  by_cases h : job.id = c.job
  · simp [h, Job.markCompleted]
  · simp [h, Ne.symm h]

theorem settle_nil (jobs : List (Job T)) : (Schedule.ofCompletions []).settle jobs = jobs :=
  List.map_id' jobs

variable [Quantity T]

namespace ListScheduling

variable {engine : RuleEngine T} {clock : T} {pending : List (Job T)}

theorem runInPlace_of_pick?_none (h : pick? engine (decisionTime clock pending) pending = none)
    (pool : Pool T) : (runInPlace engine clock pending).on pool = (.ok [], pool) := by
  rw [runInPlace]
  split
  · rfl
  · next h' => simp [h] at h'

theorem runInPlace_of_pick?_some {job : Job T} {offer : Offer T} {pool last : Pool T}
    {plan : List (Completion T)}
    (h : pick? engine (decisionTime clock pending) pending = some job)
    (ho : earliestOffer job pool.units (decisionTime clock pending) = .ok offer)
    (hrest : (runInPlace engine (Quantity.larger (decisionTime clock pending)
      (firstReady (advanceUnit pool.units offer.unit.id offer.finish)))
      (without job pending)).on (pool.commit offer.unit.id offer.finish job.id 0) =
        (.ok plan, last)) :
    (runInPlace engine clock pending).on pool = (.ok (offer.completion job :: plan), last) := by
  rw [runInPlace]
  split
  · next h' => simp [h] at h'
  · next picked h' =>
    obtain rfl : picked = job := by simpa [h] using h'.symm
    rw [on_bind_ok (on_get pool), on_bind_lift_ok ho, on_bind_ok (on_modify _ pool),
      on_bind_ok (on_get _)]
    exact on_bind_ok hrest

theorem runInPlace_of_run {units later : List (ExecutionUnit T)} {plan : List (Completion T)}
    (hw : Working units) (h : run engine clock pending units = .ok (plan, later))
    (jobs : List (Job T)) :
    (runInPlace engine clock pending).on ⟨jobs, units⟩ =
      (.ok plan, ⟨(Schedule.ofCompletions plan).settle jobs, later⟩) := by
  induction hlen : pending.length using Nat.strongRecOn generalizing clock pending units plan jobs
  with
  | ind n ih =>
    subst hlen
    cases hpick : pick? engine (decisionTime clock pending) pending with
    | none =>
      rw [run_of_pick?_none hpick] at h
      obtain ⟨rfl, rfl⟩ := Prod.mk.inj (Except.ok.inj h)
      rw [settle_nil]
      exact runInPlace_of_pick?_none hpick _
    | some job =>
      obtain ⟨unit, -, ho⟩ := exists_earliestOffer hw job (decisionTime clock pending)
      rw [run_of_pick?_some hpick ho] at h
      obtain ⟨⟨rest, _⟩, hrun, heq⟩ := exists_of_map_eq_ok h
      obtain ⟨rfl, rfl⟩ := Prod.mk.inj heq
      rw [settle_cons]
      exact runInPlace_of_pick?_some hpick ho (ih _ (length_without_lt (mem_of_pick? hpick).1)
        (hw.advance _ _) hrun _ rfl)

theorem on_allocateInPlace [LawfulQuantity T] (engine : RuleEngine T) {pool : Pool T}
    (h : pool.check = .ok ()) : ∃ run, allocateBy engine pool = .ok run ∧
      (allocateInPlace engine).on pool = (.ok run.schedule, run.pool) := by
  have hv := Pool.valid_of_check h
  obtain ⟨plan, hrun, -⟩ := exists_prompt_run engine hv.working
    (fun _ hj => Pool.exists_of_mem_freshJobs hj) hv.fresh_arrival_nonneg
    (nonneg_firstReady hv.working) (gated_initial pool.freshJobs hv.working)
  refine ⟨_, allocateBy_of_run h hrun, ?_⟩
  exact (on_checked h _).trans (on_bind_ok (runInPlace_of_run hv.working hrun pool.freshJobs))

end ListScheduling

namespace BatchHeuristic

theorem runInPlace_nil (heuristic : BatchHeuristic) (pool : Pool T) :
    (heuristic.runInPlace []).on pool = (.ok [], pool) := by
  rw [runInPlace]
  rfl

theorem runInPlace_of_pick? {heuristic : BatchHeuristic} {pending : List (Job T)} {job : Job T}
    {offer : Offer T} {pool last : Pool T} {plan : List (Completion T)}
    (h : heuristic.pick? pending pool.units = .ok (some (job, offer)))
    (hrest : (heuristic.runInPlace (pending.eraseP (·.id == job.id))).on
      (pool.commit offer.unit.id offer.finish job.id 0) = (.ok plan, last)) :
    (heuristic.runInPlace pending).on pool = (.ok (offer.completion job :: plan), last) := by
  rw [runInPlace, on_bind_ok (on_get pool)]
  dsimp only
  split
  · next h' => simp [h] at h'
  · next h' => simp [h] at h'
  · next picked chosen h' =>
    obtain ⟨rfl, rfl⟩ : picked = job ∧ chosen = offer := by simpa [h, eq_comm] using h'
    rw [on_bind_ok (on_modify _ pool)]
    exact on_bind_ok hrest

theorem runInPlace_of_run {heuristic : BatchHeuristic} {pending : List (Job T)}
    {units later : List (ExecutionUnit T)} {plan : List (Completion T)}
    (hw : Working units) (h : heuristic.run pending units = .ok (plan, later))
    (jobs : List (Job T)) :
    (heuristic.runInPlace pending).on ⟨jobs, units⟩ =
      (.ok plan, ⟨(Schedule.ofCompletions plan).settle jobs, later⟩) := by
  induction hlen : pending.length using Nat.strongRecOn generalizing pending units plan jobs with
  | ind n ih =>
    subst hlen
    rcases eq_or_ne pending [] with rfl | hne
    · rw [run_nil] at h
      obtain ⟨rfl, rfl⟩ := Prod.mk.inj (Except.ok.inj h)
      rw [settle_nil]
      exact runInPlace_nil heuristic _
    · obtain ⟨job, hmem, unit, -, hpick⟩ := exists_pick? heuristic hw hne
      have hlt : (pending.eraseP (·.id == job.id)).length < pending.length :=
        ListScheduling.length_without_lt hmem
      rw [run_of_pick? hpick] at h
      obtain ⟨⟨rest, _⟩, hrun, heq⟩ := exists_of_map_eq_ok h
      obtain ⟨rfl, rfl⟩ := Prod.mk.inj heq
      rw [settle_cons]
      exact runInPlace_of_pick? hpick (ih _ hlt (hw.advance _ _) hrun _ rfl)

theorem on_allocateInPlace (heuristic : BatchHeuristic) {pool : Pool T}
    (h : pool.check = .ok ()) : ∃ run, heuristic.allocate pool = .ok run ∧
      heuristic.allocateInPlace.on pool = (.ok run.schedule, run.pool) := by
  have hv := Pool.valid_of_check h
  obtain ⟨plan, hrun, -⟩ := exists_rounds heuristic hv.working
  refine ⟨_, allocate_of_run h hrun, ?_⟩
  exact (on_checked h _).trans (on_bind_ok (runInPlace_of_run hv.working hrun pool.freshJobs))

end BatchHeuristic

namespace RoundRobin

/-- Jobs with as much work to do as waits of them in the queue. -/
def inQueue (queue jobs : List (Job T)) : List (Job T) :=
  jobs.map fun job => { job with remaining := left queue job.id }

theorem inQueue_freshJobs {pool : Pool T} (hv : pool.Valid) :
    inQueue pool.freshJobs pool.jobs = pool.freshJobs := by
  refine List.map_congr_left fun job hj => ?_
  rw [Pool.freshJobs, left_reset hv.jobs_distinct hj]
  rfl

omit [Quantity T] in
theorem inQueue_nil (jobs : List (Job T)) : inQueue [] jobs = jobs.map Job.markCompleted := rfl

/-- What a turn leaves of a job is what waits of it afterwards. -/
theorem commit_inQueue {job : Job T} {rest : List (Job T)} (hn : job.id ∉ rest.map (·.id))
    (jobs : List (Job T)) (units : List (ExecutionUnit T)) (unit : UnitId) (finish : T)
    (remaining : Nat) :
    Pool.commit ⟨inQueue (job :: rest) jobs, units⟩ unit finish job.id remaining =
      ⟨inQueue (requeue job remaining rest) jobs, advanceUnit units unit finish⟩ := by
  unfold Pool.commit inQueue
  rw [List.map_map]
  refine congrArg (Pool.mk · _) (List.map_congr_left fun j _ => ?_)
  rw [Function.comp_apply, left_requeue, left_cons]
  by_cases h : j.id = job.id
  · have hrest : left rest j.id = 0 := left_eq_zero (h ▸ hn)
    rw [if_pos h, if_pos h.symm, if_pos h.symm, hrest, Nat.zero_add]
  · rw [if_neg h, if_neg (Ne.symm h), if_neg (Ne.symm h), Nat.zero_add, Nat.add_zero]

omit [Quantity T] in
theorem nodup_requeue {job : Job T} {rest : List (Job T)} (hn : ((job :: rest).map (·.id)).Nodup)
    (remaining : Nat) : ((requeue job remaining rest).map (·.id)).Nodup := by
  rw [List.map_cons, List.nodup_cons] at hn
  rw [map_id_requeue]
  split
  · exact List.nodup_append_comm.mp (List.nodup_cons.mpr hn)
  · rw [List.append_nil]
    exact hn.2

theorem runInPlace_cons {quantum : Nat} {hq : 0 < quantum} {job : Job T} {rest : List (Job T)}
    {schedule : Schedule T} {unit : ExecutionUnit T} {slice : Slice T} {pool : Pool T}
    (ht : Turn quantum job pool.units schedule unit slice) :
    (runInPlace quantum hq (job :: rest) schedule).on pool =
      (runInPlace quantum hq (requeue job slice.remaining rest) (record schedule slice)).on
        (pool.commit unit.id slice.finish job.id slice.remaining) := by
  have hturn : turn quantum (schedule.slices.length + 1) job unit = .ok slice := by
    rw [turn_eq (ht.working.speed_pos unit ht.unit_mem), ht.slice_eq]
  rw [runInPlace, on_bind_ok (on_get pool), ht.first]
  dsimp only
  rw [on_bind_lift_ok hturn, on_bind_ok (on_modify _ pool), ht.slice_remaining]
  rfl

theorem exists_runInPlace {quantum : Nat} (hq : 0 < quantum) {queue : List (Job T)}
    {units : List (ExecutionUnit T)} (hw : Working units) (hn : (queue.map (·.id)).Nodup)
    (jobs : List (Job T)) (schedule : Schedule T) :
    ∃ last later, run quantum hq queue units schedule = .ok (last, later) ∧
      (runInPlace quantum hq queue schedule).on ⟨inQueue queue jobs, units⟩ =
        (.ok last, ⟨jobs.map Job.markCompleted, later⟩) := by
  induction hweight : weight queue using Nat.strongRecOn generalizing queue units schedule with
  | ind n ih =>
    subst hweight
    cases queue with
    | nil =>
      refine ⟨schedule, units, run_nil hq units schedule, ?_⟩
      rw [runInPlace, inQueue_nil, on_pure]
    | cons job rest =>
      obtain ⟨unit, slice, hturn, hrun⟩ := exists_turn hq hw job rest schedule
      have hlt : weight (requeue job slice.remaining rest) < weight (job :: rest) := by
        rw [hturn.slice_eq]
        exact weight_requeue_lt hq job rest
      obtain ⟨last, later, hrest, hlast⟩ := ih _ hlt (hw.advance unit.id slice.finish)
        (nodup_requeue hn slice.remaining) (record schedule slice) rfl
      refine ⟨last, later, hrun.trans hrest, ?_⟩
      rw [runInPlace_cons hturn, commit_inQueue (List.nodup_cons.mp hn).1]
      exact hlast

theorem on_allocateInPlace {quantum : Nat} (hq : 0 < quantum) {pool : Pool T}
    (h : pool.check = .ok ()) : ∃ run, allocate quantum pool = .ok run ∧
      (allocateInPlace quantum).on pool = (.ok run.schedule, run.pool) := by
  have hv := Pool.valid_of_check h
  obtain ⟨last, later, hrun, hlast⟩ := exists_runInPlace hq hv.working
    (pool.map_id_freshJobs ▸ hv.jobs_distinct) pool.jobs .empty
  have hok := allocate_of_run hq h hrun
  obtain ⟨after, hafter, -, hserved⟩ := exists_served hq h
  rw [hok] at hafter
  obtain rfl := Except.ok.inj hafter
  refine ⟨_, hok, ?_⟩
  rw [inQueue_freshJobs hv] at hlast
  rw [allocateInPlace, dif_pos hq]
  refine (on_checked h _).trans (hlast.trans ?_)
  rw [Pool.freshJobs, hserved.settle_reset]

end RoundRobin

namespace HillClimbing

theorem on_forM_advance (plan : List (Completion T)) (pool : Pool T) :
    (plan.forM fun c => (modify fun pool =>
      { pool with units := advanceUnit pool.units c.unit c.finish } : InPlace T Unit)).on pool =
        (.ok (), { pool with units := unitsAfter plan pool.units }) := by
  induction plan generalizing pool with
  | nil => rfl
  | cons c rest ih => exact (on_bind_ok (on_modify _ pool)).trans (ih _)

/-- The search and the execution come before everything that is written. -/
theorem on_allocateInPlace (policy : HillClimbing) (pool : Pool T) :
    policy.allocateInPlace.on pool =
      match policy.allocate pool with
      | .ok run => (.ok run.schedule, run.pool)
      | .error e => (.error e, pool) := by
  rw [allocateInPlace, on_bind_ok (on_get pool), allocate]
  cases hsearch : policy.search pool with
  | error e =>
    rw [on_bind_lift_error rfl]
    rfl
  | ok climb =>
    rw [on_bind_lift_ok rfl]
    simp only [bind, Except.bind]
    cases hexecute : Execution.execute climb.assignment pool.jobs pool.units with
    | error e => exact on_bind_lift_error rfl _ pool
    | ok plan =>
      exact (on_bind_lift_ok rfl _ pool).trans ((on_bind_ok (on_modify _ pool)).trans
        (on_bind_ok (on_forM_advance plan _)))

end HillClimbing

namespace Call

theorem allocate_of_check_error {call : Call T} {pool : Pool T} {e : AllocationError T}
    (h : pool.check = .error e) (hcall : call ≠ .roundRobin 0) : call.allocate pool = .error e := by
  cases call with
  | list engine => simp only [allocate, ListScheduling.allocateBy, h, bind, Except.bind]
  | batch heuristic => simp only [allocate, BatchHeuristic.allocate, h, bind, Except.bind]
  | roundRobin quantum =>
    have hq : 0 < quantum := Nat.pos_of_ne_zero fun hz => hcall (hz ▸ rfl)
    simp only [allocate, RoundRobin.allocate, dif_pos hq, h, bind, Except.bind]
  | hillClimbing policy =>
    simp only [allocate, HillClimbing.allocate, HillClimbing.search, h, bind, Except.bind]

theorem allocate_roundRobin_zero (pool : Pool T) :
    (Call.roundRobin 0).allocate pool = .error .quantumNotPositive := rfl

/-- A call in place leaves the pool of the allocation, or the pool that it was given. -/
theorem on_perform [LawfulQuantity T] (call : Call T) (pool : Pool T) :
    call.perform.on pool = call.apply pool := by
  unfold apply
  cases hcheck : pool.check with
  | error e =>
    cases call with
    | list engine =>
      rw [allocate_of_check_error hcheck (by simp)]
      exact on_refused hcheck _
    | batch heuristic =>
      rw [allocate_of_check_error hcheck (by simp)]
      exact on_refused hcheck _
    | roundRobin quantum =>
      rcases Nat.eq_zero_or_pos quantum with rfl | hq
      · rfl
      · have hcall : (Call.roundRobin quantum : Call T) ≠ .roundRobin 0 := by
          simp only [ne_eq, Call.roundRobin.injEq]
          omega
        rw [allocate_of_check_error hcheck hcall, perform, RoundRobin.allocateInPlace, dif_pos hq]
        exact on_refused hcheck _
    | hillClimbing policy => exact policy.on_allocateInPlace pool
  | ok =>
    cases call with
    | list engine =>
      obtain ⟨run, hok, hrun⟩ := ListScheduling.on_allocateInPlace engine hcheck
      rw [allocate, hok]
      exact hrun
    | batch heuristic =>
      obtain ⟨run, hok, hrun⟩ := heuristic.on_allocateInPlace hcheck
      rw [allocate, hok]
      exact hrun
    | roundRobin quantum =>
      rcases Nat.eq_zero_or_pos quantum with rfl | hq
      · rfl
      · obtain ⟨run, hok, hrun⟩ := RoundRobin.on_allocateInPlace hq hcheck
        rw [allocate, hok]
        exact hrun
    | hillClimbing policy => exact policy.on_allocateInPlace pool

end Call
end JobAllocation
