import JobAllocation.BatchScheduling
import JobAllocation.ListScheduling
import JobAllocation.Proofs.RoundRobinRun

/-!
# Schedulers under a change of times

Jobs and units can be changed in ways that no scheduler notices: other names, or all times moved by
one map that keeps their order and the durations between them. What a scheduler does with changed
jobs and units is what it does with them as they are, with its times moved along. Names alone are
the case in which no time moves.
-/
namespace JobAllocation

variable {T : Type}

/-- A change of jobs and units that leaves their numbers, lengths and speeds, and moves arrivals and
ready times like all other times. -/
structure Retiming (T : Type) [Quantity T] where
  job : Job T → Job T
  unit : ExecutionUnit T → ExecutionUnit T
  time : T → T
  job_id (j : Job T) : (job j).id = j.id
  job_length (j : Job T) : (job j).length = j.length
  job_arrival (j : Job T) : (job j).arrival = time j.arrival
  unit_id (u : ExecutionUnit T) : (unit u).id = u.id
  unit_speed (u : ExecutionUnit T) : (unit u).speed = u.speed
  unit_comm (u : ExecutionUnit T) (t : T) :
    unit { u with ready := t } = { unit u with ready := time t }
  time_le (x y : T) : time x ≤ time y ↔ x ≤ y
  time_totalOrder (x y : T) :
    Quantity.totalOrder (time x) (time y) = Quantity.totalOrder x y
  time_add (x d : T) : time (x + d) = time x + d
  time_infinity : time Quantity.infinity = Quantity.infinity

variable [Quantity T]

namespace Retiming

variable (φ : Retiming T)

theorem time_lt (x y : T) : φ.time x < φ.time y ↔ x < y := by
  rw [Quantity.lt_iff, Quantity.lt_iff, φ.time_le, φ.time_le]

theorem time_same (x y : T) : Quantity.Same (φ.time x) (φ.time y) ↔ Quantity.Same x y :=
  and_congr (φ.time_le x y) (φ.time_le y x)

theorem larger_time (x y : T) :
    Quantity.larger (φ.time x) (φ.time y) = φ.time (Quantity.larger x y) := by
  simp only [Quantity.larger, φ.time_lt, φ.time_le, apply_ite φ.time]

theorem smallest_time (xs : List T) :
    Quantity.smallest (xs.map φ.time) = φ.time (Quantity.smallest xs) := by
  have hsmaller (x y : T) :
      Quantity.smaller (φ.time x) (φ.time y) = φ.time (Quantity.smaller x y) := by
    simp only [Quantity.smaller, φ.time_lt, φ.time_le, apply_ite φ.time]
  have key (init : T) :
      (xs.map φ.time).foldl Quantity.smaller (φ.time init) =
        φ.time (xs.foldl Quantity.smaller init) := by
    induction xs generalizing init with
    | nil => rfl
    | cons x xs ih => rw [List.map_cons, List.foldl_cons, hsmaller, ih, List.foldl_cons]
  have hall := key Quantity.infinity
  rwa [φ.time_infinity] at hall

/-- The change does not touch the work that is left. -/
def KeepsProgress : Prop :=
  ∀ (job : Job T) (n : Nat), φ.job { job with remaining := n } = { φ.job job with remaining := n }

theorem KeepsProgress.remaining_eq {φ : Retiming T} (h : φ.KeepsProgress) (job : Job T) :
    (φ.job job).remaining = job.remaining := by
  have hsame : φ.job job = { φ.job job with remaining := job.remaining } := h job job.remaining
  rw [hsame]

def offer (offer : Offer T) : Offer T :=
  ⟨φ.unit offer.unit, φ.time offer.start, φ.time offer.finish⟩

def completion (c : Completion T) : Completion T :=
  { c with start := φ.time c.start, finish := φ.time c.finish }

def slice (s : Slice T) : Slice T := { s with start := φ.time s.start, finish := φ.time s.finish }

def schedule (s : Schedule T) : Schedule T :=
  ⟨s.completions.map φ.completion, s.slices.map φ.slice, s.contextSwitches⟩

@[simp] theorem completion_job (c : Completion T) : (φ.completion c).job = c.job := rfl
@[simp] theorem completion_unit (c : Completion T) : (φ.completion c).unit = c.unit := rfl
@[simp] theorem completion_start (c : Completion T) :
    (φ.completion c).start = φ.time c.start := rfl
@[simp] theorem completion_finish (c : Completion T) :
    (φ.completion c).finish = φ.time c.finish := rfl

/-- No time moves. -/
def Still : Prop := ∀ t, φ.time t = t

theorem Still.completion_eq {φ : Retiming T} (h : φ.Still) (c : Completion T) :
    φ.completion c = c := by
  rw [Retiming.completion, h, h]

theorem Still.schedule_eq {φ : Retiming T} (h : φ.Still) (s : Schedule T) : φ.schedule s = s := by
  have hcompletions : s.completions.map φ.completion = s.completions :=
    List.map_id'' h.completion_eq _
  have hslices : s.slices.map φ.slice = s.slices :=
    List.map_id'' (fun slice => by rw [Retiming.slice, h, h]) _
  rw [Retiming.schedule, hcompletions, hslices]

theorem unit_ready (unit : ExecutionUnit T) : (φ.unit unit).ready = φ.time unit.ready := by
  have hsame : φ.unit unit = { φ.unit unit with ready := φ.time unit.ready } :=
    φ.unit_comm unit unit.ready
  rw [hsame]

theorem advanceTo_retime (unit : ExecutionUnit T) (time : T) :
    (φ.unit unit).advanceTo (φ.time time) = φ.unit (unit.advanceTo time) := by
  rw [ExecutionUnit.advanceTo, ExecutionUnit.advanceTo, φ.unit_ready, apply_ite φ.unit,
    ← φ.unit_comm]
  simp only [φ.time_lt]

theorem advanceUnit_retime (units : List (ExecutionUnit T)) (id : UnitId) (time : T) :
    advanceUnit (units.map φ.unit) id (φ.time time) = (advanceUnit units id time).map φ.unit := by
  rw [advanceUnit, advanceUnit, List.map_map, List.map_map]
  refine List.map_congr_left fun unit _ => ?_
  rw [Function.comp_apply, Function.comp_apply, apply_ite φ.unit, φ.advanceTo_retime, φ.unit_id]

theorem firstFree?_retime (units : List (ExecutionUnit T)) :
    firstFree? (units.map φ.unit) = (firstFree? units).map φ.unit := by
  have hfree : (fun a b => (φ.unit a).freeBefore (φ.unit b)) = ExecutionUnit.freeBefore := by
    funext a b
    simp only [ExecutionUnit.freeBefore, φ.unit_ready, φ.unit_id, φ.time_lt, φ.time_same]
  rw [firstFree?, Selection.best?_map, hfree, firstFree?]

theorem executionTime_retime (work : Nat) (unit : ExecutionUnit T) :
    executionTime work (φ.unit unit) = executionTime work unit := by
  rw [executionTime, executionTime, φ.unit_speed, φ.unit_id]

theorem completionTime_retime (job : Job T) (unit : ExecutionUnit T) (start : T) :
    completionTime (φ.job job) (φ.unit unit) (φ.time start) =
      (completionTime job unit start).map φ.time := by
  have hwork : executionTime (φ.job job).length (φ.unit unit) =
      (executionTime job.length unit).map id := by
    rw [φ.executionTime_retime, φ.job_length, Except.map_id, id]
  exact bind_comm hwork fun d => congrArg Except.ok (φ.time_add start d).symm

theorem make_retime (job : Job T) (notBefore : T) (unit : ExecutionUnit T) :
    Offer.make (φ.job job) (φ.time notBefore) (φ.unit unit) =
      (Offer.make job notBefore unit).map φ.offer := by
  unfold Offer.make
  rw [φ.unit_ready, φ.larger_time]
  exact bind_comm (φ.completionTime_retime job unit _) fun _ => rfl

theorem earliestOffer_retime (job : Job T) (units : List (ExecutionUnit T)) (notBefore : T) :
    earliestOffer (φ.job job) (units.map φ.unit) (φ.time notBefore) =
      (earliestOffer job units notBefore).map φ.offer := by
  have hbeats : (fun a b => (φ.offer a).beats (φ.offer b)) = Offer.beats := by
    funext a b
    simp only [Offer.beats, offer, φ.unit_id, φ.time_lt, φ.time_same]
  refine bind_comm (mapM_map_comm (φ.make_retime job notBefore) units) fun offers => ?_
  rw [Selection.best?_map, hbeats]
  cases Selection.best? Offer.beats offers <;> rfl

theorem completion_retime (offer : Offer T) (job : Job T) :
    (φ.offer offer).completion (φ.job job) = φ.completion (offer.completion job) := by
  simp only [Offer.completion, φ.job_id, completion, Retiming.offer, φ.unit_id]

end Retiming

namespace ListScheduling

variable (φ : Retiming T)

theorem arrived_retime (now : T) (pending : List (Job T)) :
    arrived (φ.time now) (pending.map φ.job) = (arrived now pending).map φ.job := by
  rw [arrived, arrived, List.filter_map]
  simp only [Function.comp_def, φ.job_arrival, φ.time_le]

theorem decisionTime_retime (clock : T) (pending : List (Job T)) :
    decisionTime (φ.time clock) (pending.map φ.job) = φ.time (decisionTime clock pending) := by
  have harrivals : (pending.map φ.job).map (·.arrival) =
      (pending.map (·.arrival)).map φ.time := by
    rw [List.map_map, List.map_map]
    exact List.map_congr_left fun job _ => φ.job_arrival job
  rw [decisionTime, decisionTime, arrived_retime, List.isEmpty_map, harrivals, φ.smallest_time,
    φ.larger_time, apply_ite φ.time]

theorem without_retime (job : Job T) (pending : List (Job T)) :
    without (φ.job job) (pending.map φ.job) = (without job pending).map φ.job := by
  rw [without, without, List.eraseP_map]
  simp only [Function.comp_def, φ.job_id]

theorem firstReady_retime (units : List (ExecutionUnit T)) :
    firstReady (units.map φ.unit) = φ.time (firstReady units) := by
  have hready : (units.map φ.unit).map (·.ready) = (units.map (·.ready)).map φ.time := by
    rw [List.map_map, List.map_map]
    exact List.map_congr_left fun unit _ => φ.unit_ready unit
  rw [firstReady, hready, φ.smallest_time, firstReady]

/-- At every time the scores put jobs in the order in which they put the changed jobs at the moved
time. -/
def KeepsOrder (engine : RuleEngine T) : Prop :=
  ∀ score ∈ engine, ∀ now a b,
    Quantity.totalOrder (score (φ.time now) (φ.job a)) (score (φ.time now) (φ.job b)) =
      Quantity.totalOrder (score now a) (score now b)

variable {φ} {engine : RuleEngine T}

/-- Scores that the change keeps in order rank as before. -/
theorem compare_retime (hscore : KeepsOrder φ engine) (now : T) (a b : Job T) :
    (engine.rankingAt (φ.time now)).compare (φ.job a) (φ.job b) =
      (engine.rankingAt now).compare a b := by
  induction engine with
  | nil =>
    simp only [RuleEngine.rankingAt, List.map_nil, Ranking.compare, List.foldr_nil, φ.job_id]
  | cons score engine ih =>
    obtain ⟨hhead, htail⟩ := List.forall_mem_cons.mp hscore
    have hrest := ih htail
    rw [RuleEngine.rankingAt, RuleEngine.rankingAt, Ranking.compare, Ranking.compare] at hrest ⊢
    rw [List.map_cons, List.map_cons, List.foldr_cons, List.foldr_cons, hhead, hrest]

theorem pick?_retime (hscore : KeepsOrder φ engine) (now : T) (pending : List (Job T)) :
    pick? engine (φ.time now) (pending.map φ.job) = (pick? engine now pending).map φ.job := by
  have hprecedes :
      (fun a b => (engine.rankingAt (φ.time now)).precedes (φ.job a) (φ.job b)) =
        (engine.rankingAt now).precedes := by
    funext a b
    rw [Ranking.precedes, Ranking.precedes, compare_retime hscore]
  rw [pick?, pick?, Ranking.select?, Ranking.select?, arrived_retime, Selection.best?_map,
    hprecedes]

/-- One round of a run, and the rounds after it. -/
theorem run_eq (engine : RuleEngine T) (clock : T) (pending : List (Job T))
    (units : List (ExecutionUnit T)) :
    run engine clock pending units =
      match pick? engine (decisionTime clock pending) pending with
      | none => .ok ([], units)
      | some job => do
        let offer ← earliestOffer job units (decisionTime clock pending)
        let units := advanceUnit units offer.unit.id offer.finish
        let (completions, units) ← run engine (Quantity.larger (decisionTime clock pending)
          (firstReady units)) (without job pending) units
        return (offer.completion job :: completions, units) := by
  rw [run]
  split <;> simp only [*]

theorem run_retime (hscore : KeepsOrder φ engine) (clock : T) (pending : List (Job T))
    (units : List (ExecutionUnit T)) :
    run engine (φ.time clock) (pending.map φ.job) (units.map φ.unit) =
      (run engine clock pending units).map
        (Prod.map (List.map φ.completion) (List.map φ.unit)) := by
  induction hlen : pending.length using Nat.strongRecOn generalizing clock pending units with
  | ind n ih =>
    subst hlen
    rw [run_eq, run_eq, decisionTime_retime, pick?_retime hscore]
    cases hpick : pick? engine (decisionTime clock pending) pending with
    | none => rfl
    | some job =>
      refine bind_comm (φ.earliestOffer_retime job units _) fun offer => ?_
      have hunits : advanceUnit (units.map φ.unit) (φ.offer offer).unit.id
          (φ.offer offer).finish = (advanceUnit units offer.unit.id offer.finish).map φ.unit := by
        rw [← φ.advanceUnit_retime]
        exact congrArg (advanceUnit _ · _) (φ.unit_id offer.unit)
      have hrest := ih _ (length_without_lt (mem_of_pick? hpick).1)
        (Quantity.larger (decisionTime clock pending)
          (firstReady (advanceUnit units offer.unit.id offer.finish)))
        (without job pending) (advanceUnit units offer.unit.id offer.finish) rfl
      rw [← φ.larger_time, ← firstReady_retime, ← without_retime, ← hunits] at hrest
      refine bind_comm hrest fun result => ?_
      exact congrArg (fun c => Except.ok (c :: result.1.map φ.completion, result.2.map φ.unit))
        (φ.completion_retime offer job)

end ListScheduling

namespace BatchHeuristic

variable {φ : Retiming T} {heuristic : BatchHeuristic}

/-- A job and its best offer, changed. -/
def retimePick (φ : Retiming T) (pick : Job T × Offer T) : Job T × Offer T :=
  (φ.job pick.1, φ.offer pick.2)

theorem pick?_retime (hdue : heuristic = deadlineMinMin → ∀ job, (φ.job job).due = φ.time job.due)
    (pending : List (Job T)) (units : List (ExecutionUnit T)) :
    heuristic.pick? (pending.map φ.job) (units.map φ.unit) =
      (heuristic.pick? pending units).map (Option.map (retimePick φ)) := by
  have hoffer (job : Job T) : bestOffer (units.map φ.unit) (φ.job job) =
      (bestOffer units job).map (retimePick φ) := by
    unfold bestOffer
    rw [φ.job_arrival]
    exact bind_comm (φ.earliestOffer_retime job units job.arrival) fun _ => rfl
  have hprefers (a b : Job T × Offer T) :
      heuristic.prefers (retimePick φ a) (retimePick φ b) = heuristic.prefers a b := by
    have hfinish (a : Job T × Offer T) : (retimePick φ a).2.finish = φ.time a.2.finish := rfl
    cases heuristic with
    | minMin => simp only [prefers, hfinish, φ.time_lt]
    | minMax => simp only [prefers, hfinish, φ.time_lt]
    | deadlineMinMin =>
      have hdates (a : Job T × Offer T) : (retimePick φ a).1.due = φ.time a.1.due := hdue rfl a.1
      simp only [prefers, hfinish, hdates, φ.time_lt, φ.time_same]
  refine bind_comm (mapM_map_comm hoffer pending) fun offers => congrArg Except.ok ?_
  rw [Selection.best?_map]
  simp only [hprefers]

/-- One round of a run, and the rounds after it. -/
theorem run_eq (heuristic : BatchHeuristic) (pending : List (Job T))
    (units : List (ExecutionUnit T)) :
    heuristic.run pending units = (do
      match ← heuristic.pick? pending units with
      | none => .ok ([], units)
      | some (job, offer) => do
        let units := advanceUnit units offer.unit.id offer.finish
        let (completions, units) ← heuristic.run (pending.eraseP (·.id == job.id)) units
        return (offer.completion job :: completions, units)) := by
  rw [run]
  split <;> simp only [*] <;> rfl

theorem run_retime (hdue : heuristic = deadlineMinMin → ∀ job, (φ.job job).due = φ.time job.due)
    (pending : List (Job T)) (units : List (ExecutionUnit T)) :
    heuristic.run (pending.map φ.job) (units.map φ.unit) =
      (heuristic.run pending units).map
        (Prod.map (List.map φ.completion) (List.map φ.unit)) := by
  induction hlen : pending.length using Nat.strongRecOn generalizing pending units with
  | ind n ih =>
    subst hlen
    rw [run_eq, run_eq, pick?_retime hdue]
    cases hpick : heuristic.pick? pending units with
    | error e => rfl
    | ok pick =>
      cases pick with
      | none => rfl
      | some pick =>
        have hunits : advanceUnit (units.map φ.unit) (φ.offer pick.2).unit.id
            (φ.offer pick.2).finish =
              (advanceUnit units pick.2.unit.id pick.2.finish).map φ.unit := by
          rw [← φ.advanceUnit_retime]
          exact congrArg (advanceUnit _ · _) (φ.unit_id pick.2.unit)
        have herase : (pending.map φ.job).eraseP (·.id == (φ.job pick.1).id) =
            (pending.eraseP (·.id == pick.1.id)).map φ.job :=
          ListScheduling.without_retime φ pick.1 pending
        have hrest := ih _ (ListScheduling.length_without_lt (mem_of_pick? hpick))
          (pending.eraseP (·.id == pick.1.id)) (advanceUnit units pick.2.unit.id pick.2.finish) rfl
        rw [← herase, ← hunits] at hrest
        refine bind_comm hrest fun result => ?_
        exact congrArg (fun c => Except.ok (c :: result.1.map φ.completion, result.2.map φ.unit))
          (φ.completion_retime pick.2 pick.1)

end BatchHeuristic

namespace RoundRobin

variable {φ : Retiming T}

theorem turn_retime (hφ : φ.KeepsProgress) (quantum step : Nat) (job : Job T)
    (unit : ExecutionUnit T) :
    turn quantum step (φ.job job) (φ.unit unit) = (turn quantum step job unit).map φ.slice := by
  have htime : executionTime (min quantum job.remaining) (φ.unit unit) =
      (executionTime (min quantum job.remaining) unit).map id := by
    rw [φ.executionTime_retime, Except.map_id, id]
  unfold turn
  simp only [hφ.remaining_eq, φ.job_id, φ.job_arrival, φ.unit_id, φ.unit_ready, φ.larger_time]
  refine bind_comm htime fun d => ?_
  rw [id, ← φ.time_add]
  rfl

theorem requeue_retime (hφ : φ.KeepsProgress) (job : Job T) (remaining : Nat)
    (rest : List (Job T)) :
    requeue (φ.job job) remaining (rest.map φ.job) =
      (requeue job remaining rest).map φ.job := by
  unfold requeue
  split
  · rw [List.map_append, List.map_singleton]
    exact congrArg (fun last => rest.map φ.job ++ [last]) (hφ job remaining).symm
  · rfl

theorem record_retime (schedule : Schedule T) (slice : Slice T) :
    record (φ.schedule schedule) (φ.slice slice) = φ.schedule (record schedule slice) := by
  have hslices : (φ.schedule schedule).addSlice (φ.slice slice) =
      φ.schedule (schedule.addSlice slice) := by
    simp only [Schedule.addSlice, Retiming.schedule, List.map_append, List.map_singleton]
  cases houtcome : slice.outcome with
  | preempted =>
    have hmoved : (φ.slice slice).outcome = .preempted := houtcome
    rw [record_of_preempted houtcome, record_of_preempted hmoved, hslices]
    rfl
  | completed =>
    have hmoved : (φ.slice slice).outcome = .completed := houtcome
    have hfirst : (φ.schedule schedule).firstStart? slice.job =
        (schedule.firstStart? slice.job).map φ.time := by
      rw [Schedule.firstStart?, Retiming.schedule, List.find?_map, Option.map_map,
        Schedule.firstStart?, Option.map_map]
      rfl
    have hstart : ((φ.schedule schedule).firstStart? slice.job).getD (φ.time slice.start) =
        φ.time ((schedule.firstStart? slice.job).getD slice.start) := by
      rw [hfirst]
      cases schedule.firstStart? slice.job <;> rfl
    rw [record_of_completed houtcome, record_of_completed hmoved, hslices]
    simp only [Schedule.addCompletion, Retiming.schedule, List.map_append, List.map_singleton,
      Retiming.completion, ← hstart]
    rfl

theorem run_retime (hφ : φ.KeepsProgress) {quantum : Nat} (hq : 0 < quantum)
    (queue : List (Job T)) (units : List (ExecutionUnit T)) (schedule : Schedule T) :
    run quantum hq (queue.map φ.job) (units.map φ.unit) (φ.schedule schedule) =
      (run quantum hq queue units schedule).map
        (Prod.map φ.schedule (List.map φ.unit)) := by
  induction hweight : weight queue using Nat.strongRecOn generalizing queue units schedule with
  | ind n ih =>
    subst hweight
    cases queue with
    | nil =>
      rw [List.map_nil, run, run]
      rfl
    | cons job rest =>
      rw [List.map_cons, run, run, φ.firstFree?_retime]
      cases firstFree? units with
      | none => rfl
      | some unit =>
        have hturn : turn quantum ((φ.schedule schedule).slices.length + 1) (φ.job job)
            (φ.unit unit) =
              (turn quantum (schedule.slices.length + 1) job unit).map φ.slice := by
          rw [turn_retime hφ, Retiming.schedule, List.length_map]
        refine bind_comm hturn fun slice => ?_
        have hunits : advanceUnit (units.map φ.unit) (φ.unit unit).id (φ.slice slice).finish =
            (advanceUnit units unit.id slice.finish).map φ.unit := by
          rw [← φ.advanceUnit_retime, φ.unit_id]
          rfl
        rw [hφ.remaining_eq, requeue_retime hφ, hunits, record_retime]
        exact ih _ (weight_requeue_lt hq job rest) _ _ _ rfl

end RoundRobin
end JobAllocation
