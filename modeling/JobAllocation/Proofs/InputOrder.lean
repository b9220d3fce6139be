import JobAllocation.Proofs.BatchRun
import JobAllocation.Proofs.HillClimbingRun
import JobAllocation.Proofs.ListRun
import JobAllocation.Proofs.RoundRobinRun
import JobAllocation.Proofs.SearchOrder

/-!
# The order of the input does not matter

Two runs on the same jobs and units, listed in different orders, make every choice alike, so they
commit the same completions and their units stay the same but for the order. Only the order in which
round robin gives its first turns is taken from the list of jobs.

List scheduling starts its clock at the first ready time. Of two zeros of different sign that is the
one listed first. No usual rule reads the clock, but an engine that reads the sign of a zero picks
otherwise, so engines are asked to decide alike at both zeros.
-/
namespace JobAllocation

variable {T : Type} [Quantity T]

/-- The same jobs and units, listed in another order. -/
structure Pool.Reordered (pool other : Pool T) : Prop where
  jobs : pool.jobs.Perm other.jobs
  units : pool.units.Perm other.units

namespace Pool

variable {pool other : Pool T}

theorem Valid.of_reordered (h : pool.Valid) (hp : pool.Reordered other) : other.Valid where
  units_ne_nil hnil := h.units_ne_nil (hnil ▸ hp.units).eq_nil
  units_distinct := (hp.units.map _).nodup_iff.mp h.units_distinct
  units_valid unit hu := h.units_valid unit (hp.units.symm.subset hu)
  jobs_distinct := (hp.jobs.map _).nodup_iff.mp h.jobs_distinct
  jobs_valid job hj := h.jobs_valid job (hp.jobs.symm.subset hj)

theorem Reordered.check (hp : pool.Reordered other) (h : pool.check = .ok ()) :
    other.check = .ok () :=
  other.check_eq_ok_iff.mpr (other.violations_eq_nil_iff.mpr
    ((valid_of_check h).of_reordered hp))

end Pool

/-- Both runs end with one result, and with units that differ in their order only. -/
def EndsAlike {E R : Type} (run again : Except E (R × List (ExecutionUnit T))) : Prop :=
  ∃ result later last, run = .ok (result, later) ∧ again = .ok (result, last) ∧ later.Perm last

omit [Quantity T] in
theorem EndsAlike.map {E R S : Type} {run again : Except E (R × List (ExecutionUnit T))}
    (h : EndsAlike run again) (f : R → S) :
    EndsAlike (run.map fun (result, units) => (f result, units))
      (again.map fun (result, units) => (f result, units)) := by
  obtain ⟨result, later, last, rfl, rfl, hlast⟩ := h
  exact ⟨f result, later, last, rfl, rfl, hlast⟩

/-- Both allocations succeed with one schedule, and leave pools that differ in their order only. -/
def Alike (outcome again : Except (AllocationError T) (Allocation T)) : Prop :=
  ∃ run other, outcome = .ok run ∧ again = .ok other ∧ other.schedule = run.schedule ∧
    run.pool.Reordered other.pool

theorem advanceUnit_perm {units others : List (ExecutionUnit T)} (hp : units.Perm others)
    (id : UnitId) (time : T) : (advanceUnit units id time).Perm (advanceUnit others id time) :=
  hp.map _

variable [LawfulQuantity T]

namespace BatchHeuristic

variable {heuristic : BatchHeuristic}

theorem pick?_eq_of_perm {units others : List (ExecutionUnit T)} (hw : Working units)
    (hp : units.Perm others) (pending : List (Job T)) :
    heuristic.pick? pending units = heuristic.pick? pending others := by
  have hbest : bestOffer units = bestOffer others := by
    funext job
    rw [bestOffer, bestOffer, earliestOffer_eq_of_perm hw hp]
  rw [pick?, pick?, hbest]

theorem run_endsAlike (heuristic : BatchHeuristic) (pending : List (Job T))
    {units others : List (ExecutionUnit T)} (hw : Working units) (hp : units.Perm others) :
    EndsAlike (heuristic.run pending units) (heuristic.run pending others) := by
  induction hlen : pending.length using Nat.strongRecOn generalizing pending units others with
  | ind n ih =>
    subst hlen
    rcases eq_or_ne pending [] with rfl | hne
    · exact ⟨[], units, others, run_nil heuristic units, run_nil heuristic others, hp⟩
    · obtain ⟨job, hmem, unit, -, hpick⟩ := exists_pick? heuristic hw hne
      have hlt : (pending.eraseP (·.id == job.id)).length < pending.length :=
        ListScheduling.length_without_lt hmem
      have hagain := hpick
      rw [pick?_eq_of_perm hw hp] at hagain
      rw [run_of_pick? hpick, run_of_pick? hagain]
      exact (ih _ hlt _ (hw.advance _ _) (advanceUnit_perm hp _ _) rfl).map _

theorem allocate_alike (heuristic : BatchHeuristic) {pool other : Pool T}
    (h : pool.check = .ok ()) (hp : pool.Reordered other) :
    Alike (heuristic.allocate pool) (heuristic.allocate other) := by
  have hv := Pool.valid_of_check h
  have hfresh : pool.freshJobs.Perm other.freshJobs := hp.jobs.map _
  have hsorted := mergeSort_eq_of_perm Job.id (pool.map_id_freshJobs ▸ hv.jobs_distinct) hfresh
  obtain ⟨plan, later, last, hrun, hagain, hlast⟩ :=
    heuristic.run_endsAlike (pool.freshJobs.mergeSort (·.id ≤ ·.id)) hv.working hp.units
  rw [hsorted] at hagain
  exact ⟨_, _, allocate_of_run h hrun, allocate_of_run (hp.check h) hagain, rfl, hfresh.map _,
    hlast⟩

end BatchHeuristic

namespace RoundRobin

variable {quantum : Nat}

theorem run_endsAlike (hq : 0 < quantum) (queue : List (Job T))
    {units others : List (ExecutionUnit T)} (hw : Working units) (hp : units.Perm others)
    (schedule : Schedule T) :
    EndsAlike (run quantum hq queue units schedule) (run quantum hq queue others schedule) := by
  induction hweight : weight queue using Nat.strongRecOn
    generalizing queue units others schedule with
  | ind n ih =>
    subst hweight
    cases queue with
    | nil => exact ⟨schedule, units, others, run_nil hq _ _, run_nil hq _ _, hp⟩
    | cons job rest =>
      have hw' : Working others := hw.of_perm hp
      obtain ⟨unit, slice, hturn, hrun⟩ := exists_turn hq hw job rest schedule
      obtain ⟨unit', slice', hturn', hagain⟩ := exists_turn hq hw' job rest schedule
      have hfirst := firstFree?_eq_of_perm hw hp
      rw [hturn.first, hturn'.first] at hfirst
      obtain rfl := Option.some.inj hfirst
      obtain rfl : slice = slice' := hturn.slice_eq.trans hturn'.slice_eq.symm
      have hlt : weight (requeue job slice.remaining rest) < weight (job :: rest) := by
        rw [hturn.slice_eq]
        exact weight_requeue_lt hq job rest
      rw [hrun, hagain]
      exact ih _ hlt _ (hw.advance _ _) (advanceUnit_perm hp _ _) _ rfl

theorem allocate_alike (hq : 0 < quantum) {pool : Pool T} {others : List (ExecutionUnit T)}
    (h : pool.check = .ok ()) (hp : pool.units.Perm others) :
    Alike (allocate quantum pool) (allocate quantum ⟨pool.jobs, others⟩) := by
  have hp' : pool.Reordered ⟨pool.jobs, others⟩ := ⟨.refl _, hp⟩
  obtain ⟨schedule, later, last, hrun, hagain, hlast⟩ :=
    run_endsAlike hq pool.freshJobs (Pool.valid_of_check h).working hp .empty
  exact ⟨_, _, allocate_of_run hq h hrun, allocate_of_run hq (hp'.check h) hagain, rfl, .refl _,
    hlast⟩

end RoundRobin

/-- At both times an engine decides alike between any two of some jobs. -/
def RuleEngine.Agrees (engine : RuleEngine T) (jobs : List (Job T)) (now other : T) : Prop :=
  ∀ a ∈ jobs, ∀ b ∈ jobs,
    (engine.rankingAt now).compare a b = (engine.rankingAt other).compare a b

omit [LawfulQuantity T] in
theorem RuleEngine.Agrees.mono {engine : RuleEngine T} {jobs part : List (Job T)} {now other : T}
    (h : engine.Agrees jobs now other) (hsub : part ⊆ jobs) : engine.Agrees part now other :=
  fun a ha b hb => h a (hsub ha) b (hsub hb)

omit [LawfulQuantity T] in
theorem RuleChain.agrees_engine (chain : RuleChain) (jobs : List (Job T)) (now other : T) :
    chain.engine.Agrees jobs now other := fun a _ b _ => by
  rw [rankingAt_engine, rankingAt_engine]

namespace ListScheduling

/-- Two clocks that show the same time, at which an engine decides alike between pending jobs. -/
structure Tied (engine : RuleEngine T) (pending : List (Job T)) (clock other : T) : Prop where
  same : Quantity.Same clock other
  agrees : engine.Agrees pending clock other

theorem same_smallest_of_perm {xs ys : List T} (hx : ∀ x ∈ xs, 0 ≤ x) (hp : xs.Perm ys) :
    Quantity.Same (Quantity.smallest xs) (Quantity.smallest ys) := by
  have hle {xs ys : List T} (hx : ∀ x ∈ xs, 0 ≤ x) (hp : xs.Perm ys) :
      Quantity.smallest xs ≤ Quantity.smallest ys := by
    have hy : ∀ y ∈ ys, 0 ≤ y := fun y hy => hx y (hp.symm.subset hy)
    rcases eq_or_ne ys [] with rfl | hne
    · obtain rfl := hp.eq_nil
      exact Quantity.le_refl Quantity.nonneg_infinity
    · obtain ⟨y, hmem, hle⟩ := Quantity.exists_le_smallest hy hne
      exact Quantity.le_trans (Quantity.smallest_le hx (hp.symm.subset hmem)) hle
  exact ⟨hle hx hp, hle (fun y hy => hx y (hp.symm.subset hy)) hp.symm⟩

theorem same_firstReady {units others : List (ExecutionUnit T)} (hw : Working units)
    (hp : units.Perm others) : Quantity.Same (firstReady units) (firstReady others) :=
  same_smallest_of_perm (List.forall_mem_map.mpr hw.ready_nonneg) (hp.map _)

omit [LawfulQuantity T] in
theorem arrived_perm {clock other : T} (hs : Quantity.Same clock other)
    {pending jobs : List (Job T)} (hp : pending.Perm jobs) :
    (arrived clock pending).Perm (arrived other jobs) := by
  have harrived : arrived clock pending = arrived other pending := by
    refine List.filter_congr fun job _ => decide_eq_decide.mpr ⟨fun h => ?_, fun h => ?_⟩
    · exact Quantity.le_trans h hs.1
    · exact Quantity.le_trans h hs.2
  rw [harrived]
  exact hp.filter _

variable [OrderedQuantity T] {engine : RuleEngine T} {clock other : T} {pending jobs : List (Job T)}

omit [LawfulQuantity T] in
/-- Clocks that show one time are tied unless it is zero. -/
theorem Tied.of_pos (hs : Quantity.Same clock other) (hc : 0 < clock) :
    Tied engine pending clock other := by
  obtain rfl := OrderedQuantity.eq_of_same hs hc
  exact ⟨hs, fun _ _ _ _ => rfl⟩

omit [LawfulQuantity T] [OrderedQuantity T] in
theorem Tied.mono (ht : Tied engine pending clock other) (hsub : jobs ⊆ pending) :
    Tied engine jobs clock other := ⟨ht.same, ht.agrees.mono hsub⟩

/-- Clocks that move on do so to one time, and clocks that stand still stay tied. -/
theorem Tied.larger (ht : Tied engine pending clock other) (hc : 0 ≤ clock) {x y : T}
    (hxy : Quantity.Same x y) :
    Tied engine pending (Quantity.larger clock x) (Quantity.larger other y) := by
  have hother : 0 ≤ other := Quantity.le_trans hc ht.same.1
  rw [Quantity.larger_eq hc, Quantity.larger_eq hother]
  by_cases hlt : clock < x
  · rw [if_pos hlt,
      if_pos (Quantity.lt_of_le_of_lt ht.same.2 (Quantity.lt_of_lt_of_le hlt hxy.1))]
    exact .of_pos hxy (Quantity.lt_of_le_of_lt hc hlt)
  · rw [if_neg hlt, if_neg fun h => hlt
      (Quantity.lt_of_le_of_lt ht.same.1 (Quantity.lt_of_lt_of_le h hxy.2))]
    exact ht

theorem Tied.decisionTime (ht : Tied engine pending clock other) (hc : 0 ≤ clock)
    (ha : ∀ job ∈ pending, 0 ≤ job.arrival) (hp : pending.Perm jobs) :
    Tied engine pending (decisionTime clock pending) (decisionTime other jobs) := by
  have hempty : (arrived clock pending).isEmpty = (arrived other jobs).isEmpty :=
    (arrived_perm ht.same hp).isEmpty_eq
  unfold ListScheduling.decisionTime
  rw [hempty]
  split
  · exact ht.larger hc (same_smallest_of_perm (List.forall_mem_map.mpr ha) (hp.map _))
  · exact ht

/-- No unit starts a job at the clock while it shows zero, so the sign of that zero is not seen. -/
theorem earliestOffer_eq_of_same {units : List (ExecutionUnit T)} (hw : Working units)
    (hs : Quantity.Same clock other) (job : Job T) :
    earliestOffer job units clock = earliestOffer job units other := by
  have hstart : ∀ unit ∈ units,
      Quantity.larger unit.ready clock = Quantity.larger unit.ready other := by
    intro unit hu
    have hready := hw.ready_nonneg unit hu
    rw [Quantity.larger_eq hready, Quantity.larger_eq hready]
    by_cases hlt : unit.ready < clock
    · obtain rfl := OrderedQuantity.eq_of_same hs (Quantity.lt_of_le_of_lt hready hlt)
      rfl
    · rw [if_neg hlt, if_neg fun h => hlt (Quantity.lt_of_lt_of_le h hs.2)]
  have hoffer : ∀ unit ∈ units, Offer.make job clock unit = .ok (Offer.on job other unit) := by
    intro unit hu
    rw [Offer.make_eq (hw.speed_pos unit hu), Offer.on, hstart unit hu, Offer.on]
  have hother := mapM_eq_ok fun unit hu => Offer.make_eq (hw.speed_pos unit hu) job other
  rw [earliestOffer, earliestOffer, mapM_eq_ok hoffer, hother]

omit [LawfulQuantity T] in
theorem pick?_eq_of_perm (ht : Tied engine pending clock other)
    (hd : (pending.map (·.id)).Nodup) (hp : pending.Perm jobs) :
    pick? engine clock pending = pick? engine other jobs := by
  have hdistinct : ((arrived clock pending).map (·.id)).Nodup :=
    hd.sublist (List.filter_sublist.map _)
  have hagrees : engine.Agrees (arrived clock pending) clock other :=
    ht.agrees.mono (List.filter_subset_self _)
  calc pick? engine clock pending
    _ = (engine.rankingAt other).select? (arrived clock pending) :=
      Selection.best?_congr fun a ha b hb => congrArg (· == .lt) (hagrees a ha b hb)
    _ = pick? engine other jobs :=
      (Ranking.decides _ hdistinct).best?_eq_of_perm (arrived_perm ht.same hp)

omit [Quantity T] [LawfulQuantity T] [OrderedQuantity T] in
theorem without_perm (hd : (pending.map (·.id)).Nodup) (hp : pending.Perm jobs) (job : Job T) :
    (without job pending).Perm (without job jobs) := by
  refine hp.eraseP _ ((List.pairwise_map.mp hd).imp fun hne ha hb => hne ?_)
  rw [eq_of_beq ha, eq_of_beq hb]

theorem run_endsAlike {units others : List (ExecutionUnit T)} (hw : Working units)
    (hu : units.Perm others) (hd : (pending.map (·.id)).Nodup)
    (ha : ∀ job ∈ pending, 0 ≤ job.arrival) (hp : pending.Perm jobs) (hc : 0 ≤ clock)
    (ht : Tied engine pending clock other) :
    EndsAlike (run engine clock pending units) (run engine other jobs others) := by
  induction hlen : pending.length using Nat.strongRecOn
    generalizing clock other pending jobs units others with
  | ind n ih =>
    subst hlen
    have hnow := ht.decisionTime hc ha hp
    have hpicks := pick?_eq_of_perm hnow hd hp
    have hnonneg := nonneg_decisionTime hc pending
    cases hpick : pick? engine (decisionTime clock pending) pending with
    | none =>
      exact ⟨[], units, others, run_of_pick?_none hpick, run_of_pick?_none (hpicks ▸ hpick), hu⟩
    | some job =>
      have hmem := (mem_of_pick? hpick).1
      have hsub : without job pending ⊆ pending := List.eraseP_subset
      obtain ⟨unit, -, hoffer⟩ := exists_earliestOffer hw job (decisionTime clock pending)
      have hother : earliestOffer job others (decisionTime other jobs) =
          .ok (Offer.on job (decisionTime clock pending) unit) := by
        rw [← earliestOffer_eq_of_perm hw hu, ← earliestOffer_eq_of_same hw hnow.same, hoffer]
      have hw' := hw.advance unit.id (Offer.on job (decisionTime clock pending) unit).finish
      have hu' := advanceUnit_perm hu unit.id
        (Offer.on job (decisionTime clock pending) unit).finish
      rw [run_of_pick?_some hpick hoffer, run_of_pick?_some (hpicks ▸ hpick) hother]
      exact (ih _ (length_without_lt hmem) hw' hu'
        (hd.sublist (List.eraseP_sublist.map _)) (fun j hj => ha j (hsub hj))
        (without_perm hd hp job) (Quantity.nonneg_larger hnonneg _)
        ((hnow.larger hnonneg (same_firstReady hw' hu')).mono hsub) rfl).map _

theorem allocateBy_alike (engine : RuleEngine T) {pool other : Pool T} (h : pool.check = .ok ())
    (hp : pool.Reordered other)
    (ht : Tied engine pool.freshJobs (firstReady pool.units) (firstReady other.units)) :
    Alike (allocateBy engine pool) (allocateBy engine other) := by
  have hv := Pool.valid_of_check h
  have hfresh : pool.freshJobs.Perm other.freshJobs := hp.jobs.map _
  obtain ⟨plan, later, last, hrun, hagain, hlast⟩ := run_endsAlike hv.working hp.units
    (pool.map_id_freshJobs ▸ hv.jobs_distinct) hv.fresh_arrival_nonneg hfresh
    (nonneg_firstReady hv.working) ht
  exact ⟨_, _, allocateBy_of_run h hrun, allocateBy_of_run (hp.check h) hagain, rfl,
    hfresh.map _, hlast⟩

end ListScheduling

/-- No choice depends on where jobs and units are listed, but for the first turns of round robin.
The first ready times of the two pools agree. Where they are zero their signs can differ, and an
engine must not decide by the sign. -/
theorem input_order_irrelevant (pool other : Pool Binary64) (valid : pool.check = .ok ())
    (reordered : pool.Reordered other) :
    Quantity.Same (ListScheduling.firstReady pool.units)
        (ListScheduling.firstReady other.units) ∧
      (∀ engine : RuleEngine Binary64,
        0 < ListScheduling.firstReady pool.units ∨
          engine.Agrees pool.freshJobs (ListScheduling.firstReady pool.units)
            (ListScheduling.firstReady other.units) →
        Alike (ListScheduling.allocateBy engine pool) (ListScheduling.allocateBy engine other)) ∧
      (∀ policy : ListScheduling, Alike (policy.allocate pool) (policy.allocate other)) ∧
      (∀ heuristic : BatchHeuristic,
        Alike (heuristic.allocate pool) (heuristic.allocate other)) ∧
      (∀ quantum, 0 < quantum → Alike (RoundRobin.allocate quantum pool)
        (RoundRobin.allocate quantum ⟨pool.jobs, other.units⟩)) ∧
      (∀ a, LocalSearch.makespan a pool.jobs pool.units =
        LocalSearch.makespan a other.jobs other.units) ∧
      (∀ cap a, LocalSearch.optimize cap a pool.jobs pool.units =
        LocalSearch.optimize cap a other.jobs other.units) ∧
      ∀ cap a b climb, LocalSearch.optimize cap a pool.jobs pool.units = .ok climb →
        a.entries.Perm b.entries →
        ∃ again, LocalSearch.optimize cap b other.jobs other.units = .ok again ∧
          climb.Reordered again := by
  have hv := Pool.valid_of_check valid
  have hsame := ListScheduling.same_firstReady hv.working reordered.units
  refine ⟨hsame, ?_, ?_, ?_, ?_, ?_, ?_, ?_⟩
  · rintro engine (hpos | hagrees)
    · exact ListScheduling.allocateBy_alike engine valid reordered (.of_pos hsame hpos)
    · exact ListScheduling.allocateBy_alike engine valid reordered ⟨hsame, hagrees⟩
  · exact fun policy => ListScheduling.allocateBy_alike policy.rules.engine valid reordered
      ⟨hsame, policy.rules.agrees_engine _ _ _⟩
  · exact fun heuristic => heuristic.allocate_alike valid reordered
  · exact fun quantum hq => RoundRobin.allocate_alike hq valid reordered.units
  · exact LocalSearch.makespan_eq_of_perm hv.jobs_distinct hv.units_distinct reordered.jobs
      reordered.units
  · exact LocalSearch.optimize_eq_of_perm hv.jobs_distinct hv.units_distinct reordered.jobs
      reordered.units
  · intro cap a b climb hclimb hab
    obtain ⟨p, hp⟩ := LocalSearch.exists_poses hv.jobs_distinct hv.units_distinct
      fun unit hu => (hv.units_valid unit hu).speed_pos
    obtain ⟨_, again, hok, hagain, hsame⟩ :=
      hp.exists_reordered (hp.complete_of_optimize hclimb) hab cap
    obtain rfl := Except.ok.inj (hclimb.symm.trans hok)
    refine ⟨again, ?_, hsame⟩
    rw [← hagain]
    exact (LocalSearch.optimize_eq_of_perm hv.jobs_distinct hv.units_distinct reordered.jobs
      reordered.units cap b).symm

/-- Two units of which both are free at zero, one of them at the negative one. -/
def signedZeros : Pool Binary64 where
  jobs := [⟨0, "long", 200, 0, none, 200⟩, ⟨1, "short", 100, 0, none, 100⟩]
  units := [⟨0, "slow", Quantity.ofNat 50, 0⟩, ⟨1, "fast", Quantity.ofNat 100, Binary64.zero true⟩]

/-- The pool listed from its end. -/
def Pool.backwards (pool : Pool T) : Pool T := ⟨pool.jobs.reverse, pool.units.reverse⟩

omit [Quantity T] in
theorem Pool.reordered_backwards (pool : Pool T) : pool.Reordered pool.backwards :=
  ⟨(List.reverse_perm _).symm, (List.reverse_perm _).symm⟩

/-- Takes the job that has waited for the shortest time, and of two such jobs the shorter one. -/
def leastWaited : RuleEngine Binary64 :=
  [fun now job => now - job.arrival, fun _ job => Quantity.ofNat job.length]

theorem input_order_irrelevant_signedZeros :
    signedZeros.check = .ok () ∧ signedZeros.Reordered signedZeros.backwards ∧
      leastWaited.Agrees signedZeros.freshJobs (ListScheduling.firstReady signedZeros.units)
        (ListScheduling.firstReady signedZeros.backwards.units) ∧
      Alike (ListScheduling.allocateBy leastWaited signedZeros)
        (ListScheduling.allocateBy leastWaited signedZeros.backwards) ∧
      Alike (RoundRobin.allocate 70 signedZeros)
        (RoundRobin.allocate 70 ⟨signedZeros.jobs, signedZeros.backwards.units⟩) ∧
      ∃ climb again,
        LocalSearch.optimize none ⟨[(0, 0), (1, 0)]⟩ signedZeros.jobs signedZeros.units =
          .ok climb ∧
        LocalSearch.optimize none ⟨[(1, 0), (0, 0)]⟩ signedZeros.backwards.jobs
          signedZeros.backwards.units = .ok again ∧ climb.Reordered again := by
  have hcheck : signedZeros.check = .ok () := signedZeros.check_eq_ok_iff.mpr (by decide +kernel)
  have hp := signedZeros.reordered_backwards
  have hv := Pool.valid_of_check hcheck
  have hagrees : leastWaited.Agrees signedZeros.freshJobs
      (ListScheduling.firstReady signedZeros.units)
      (ListScheduling.firstReady signedZeros.backwards.units) := by
    unfold RuleEngine.Agrees
    decide +kernel
  obtain ⟨-, hlist, -, -, hrobin, -, -, hsearch⟩ :=
    input_order_irrelevant signedZeros signedZeros.backwards hcheck hp
  obtain ⟨p, hposes⟩ := LocalSearch.exists_poses hv.jobs_distinct hv.units_distinct
    fun unit hu => (hv.units_valid unit hu).speed_pos
  have hcomplete : (⟨[(0, 0), (1, 0)]⟩ : Assignment).Complete signedZeros.jobs
      signedZeros.units := ⟨.refl _, by decide⟩
  obtain ⟨climb, -, hclimb, -⟩ :=
    LocalSearch.exists_climb hposes (hposes.complete hcomplete) none
  obtain ⟨again, hagain, hsame⟩ :=
    hsearch none ⟨[(0, 0), (1, 0)]⟩ ⟨[(1, 0), (0, 0)]⟩ climb hclimb (.swap (1, 0) (0, 0) [])
  exact ⟨hcheck, hp, hagrees, hlist leastWaited (.inr hagrees), hrobin 70 (by decide), climb, again,
    hclimb, hagain, hsame⟩

/-- Takes the shorter job while the sign of the clock is negative. -/
def signReader : RuleEngine Binary64 :=
  [fun now job => if now.place < 0 then Quantity.ofNat job.length else 0]

/-- Two jobs of one length for one unit. -/
def twoAlike : Pool Binary64 where
  jobs := [⟨0, "first", 100, 0, none, 100⟩, ⟨1, "second", 100, 0, none, 100⟩]
  units := [⟨0, "only", Quantity.ofNat 100, 0⟩]

/-- The jobs in the order in which an allocation commits them. -/
def committed (outcome : Except (AllocationError T) (Allocation T)) :
    Except (AllocationError T) (List JobId) :=
  outcome.map fun run => run.schedule.completions.map (·.job)

/-- The engine meets the positive zero first in one order of the units and the negative one in the
other. Round robin gives the first turn to the job that is listed first. -/
theorem committed_ne_backwards :
    signedZeros.check = .ok () ∧ signedZeros.Reordered signedZeros.backwards ∧
      committed (ListScheduling.allocateBy signReader signedZeros) = .ok [0, 1] ∧
      committed (ListScheduling.allocateBy signReader signedZeros.backwards) = .ok [1, 0] ∧
      twoAlike.check = .ok () ∧ twoAlike.Reordered twoAlike.backwards ∧
      committed (RoundRobin.allocate 100 twoAlike) = .ok [0, 1] ∧
      committed (RoundRobin.allocate 100 twoAlike.backwards) = .ok [1, 0] :=
  ⟨signedZeros.check_eq_ok_iff.mpr (by decide +kernel), signedZeros.reordered_backwards,
    by decide +kernel, by decide +kernel, twoAlike.check_eq_ok_iff.mpr (by decide +kernel),
    twoAlike.reordered_backwards, by decide +kernel, by decide +kernel⟩

end JobAllocation
