import JobAllocation.Proofs.FirstLeast
import JobAllocation.Proofs.LocalOptimum

/-!
# The search is steepest descent

The plain search tries every rebinding of one job, sums the makespan of each afresh, takes the first
of those with the least makespan and makes it if that is below the current one. The search proper
scores moves at adjusted loads and sums afresh only what it is about to do. As long as scores and
sums agree the two do the same, move for move.
-/
namespace JobAllocation.LocalSearch

variable {T : Type} [Quantity T]

/-- Every rebinding of one job to another unit, with the unit that it leaves, in ascending order of
jobs and then of units. -/
def rebindings (a : Assignment) (jobs : List (Job T)) (units : List (ExecutionUnit T)) :
    List (JobId × UnitId × UnitId) :=
  (jobs.mergeSort (·.id ≤ ·.id)).flatMap fun job =>
    (a.unitOf? job.id).toList.flatMap fun source =>
      (((units.mergeSort (·.id ≤ ·.id)).map (·.id)).filter (· ≠ source)).map fun target =>
        (job.id, source, target)

/-- All of them as moves, each with the makespan of the assignment that it leads to. -/
def trials (a : Assignment) (jobs : List (Job T)) (units : List (ExecutionUnit T)) :
    Except (AllocationError T) (List (Move T)) :=
  (rebindings a jobs units).mapM fun (job, source, target) => do
    return { job, source, target, makespan := ← makespan (a.assign job target) jobs units }

/-- What the plain search does to an assignment with the makespan `current` after `made` moves. -/
inductive Descends (jobs : List (Job T)) (units : List (ExecutionUnit T)) (cap : Option Nat) :
    Nat → Assignment → T → List (Move T) → Assignment → T → Bool → Prop where
  | capped {made : Nat} {a : Assignment} {current : T}
      (reached : ∃ limit ∈ cap, limit ≤ made) :
      Descends jobs units cap made a current [] a current false
  | settled {made : Nat} {a : Assignment} {current : T} {tried : List (Move T)}
      (room : ∀ limit ∈ cap, made < limit)
      (tries : trials a jobs units = .ok tried)
      (stays : ∀ move, FirstLeast Move.makespan tried move → ¬ move.makespan < current) :
      Descends jobs units cap made a current [] a current true
  | moved {made : Nat} {a last : Assignment} {current final : T} {tried rest : List (Move T)}
      {move : Move T} {converged : Bool}
      (room : ∀ limit ∈ cap, made < limit)
      (tries : trials a jobs units = .ok tried)
      (first : FirstLeast Move.makespan tried move)
      (lower : move.makespan < current)
      (tail : Descends jobs units cap (made + 1) (a.assign move.job move.target) move.makespan rest
        last final converged) :
      Descends jobs units cap made a current (move :: rest) last final converged

/-- A search that did what the plain search does. -/
structure Climb.Steepest (climb : Climb T) (cap : Option Nat) (initial : Assignment)
    (jobs : List (Job T)) (units : List (ExecutionUnit T)) : Prop where
  initial_value : LocalSearch.makespan initial jobs units = .ok climb.initialMakespan
  descends : Descends jobs units cap 0 initial climb.initialMakespan climb.moves climb.assignment
    climb.makespan climb.converged

section Unique

variable {jobs : List (Job T)} {units : List (ExecutionUnit T)} {cap : Option Nat}

/-- The plain search can go only one way. -/
theorem Descends.unique {made : Nat} {a last last' : Assignment} {current final final' : T}
    {moves moves' : List (Move T)} {converged converged' : Bool}
    (h : Descends jobs units cap made a current moves last final converged)
    (h' : Descends jobs units cap made a current moves' last' final' converged') :
    moves = moves' ∧ last = last' ∧ final = final' ∧ converged = converged' := by
  induction h generalizing moves' last' final' converged' with
  | capped reached =>
    obtain ⟨limit, hl, hle⟩ := reached
    cases h' with
    | capped _ => exact ⟨rfl, rfl, rfl, rfl⟩
    | settled room => exact absurd (room limit hl) (Nat.not_lt.mpr hle)
    | moved room => exact absurd (room limit hl) (Nat.not_lt.mpr hle)
  | settled room tries stays =>
    cases h' with
    | capped reached =>
      obtain ⟨limit, hl, hle⟩ := reached
      exact absurd (room limit hl) (Nat.not_lt.mpr hle)
    | settled _ _ _ => exact ⟨rfl, rfl, rfl, rfl⟩
    | moved _ tries' first lower =>
      obtain rfl := Except.ok.inj (tries.symm.trans tries')
      exact absurd lower (stays _ first)
  | moved room tries first lower _ ih =>
    cases h' with
    | capped reached =>
      obtain ⟨limit, hl, hle⟩ := reached
      exact absurd (room limit hl) (Nat.not_lt.mpr hle)
    | settled _ tries' stays =>
      obtain rfl := Except.ok.inj (tries.symm.trans tries')
      exact absurd lower (stays _ first)
    | moved _ tries' first' _ tail' =>
      obtain rfl := Except.ok.inj (tries.symm.trans tries')
      obtain rfl := first.unique first'
      obtain ⟨rfl, hends⟩ := ih tail'
      exact ⟨rfl, hends⟩

theorem Climb.Steepest.unique {climb other : Climb T} {initial : Assignment}
    (h : climb.Steepest cap initial jobs units) (h' : other.Steepest cap initial jobs units) :
    climb = other := by
  obtain ⟨assignment, start, final, moves, converged⟩ := climb
  obtain ⟨assignment', start', final', moves', converged'⟩ := other
  obtain rfl : start = start' := Except.ok.inj (h.initial_value.symm.trans h'.initial_value)
  obtain ⟨rfl, rfl, rfl, rfl⟩ := h.descends.unique h'.descends
  rfl

end Unique

namespace Problem

variable {jobs : List (Job T)} {units : List (ExecutionUnit T)} {p : Problem T}
  {x : p.Placement} {a : Assignment} {cap : Option Nat} {made : Nat}

/-- The move of a neighbour, with the makespan that it leads to. -/
def Neighbour.move (n : p.Neighbour) (x : p.Placement) : Move T :=
  ⟨n.job.id, p.unitId n.source, p.unitId n.target, p.makespan (n.apply x)⟩

omit [Quantity T] in
theorem map_unitId (p : Problem T) :
    (List.finRange p.units.length).map p.unitId = p.units.map (·.id) := by
  conv_rhs => rw [← List.map_get_finRange p.units, List.map_map]
  rfl

theorem filter_unitId (hp : Poses jobs units p) (source : p.Position) :
    (p.units.map (·.id)).filter (· ≠ p.unitId source) =
      ((List.finRange p.units.length).filter (· ≠ source)).map p.unitId := by
  rw [← map_unitId, List.filter_map]
  congr 1
  refine List.filter_congr fun u _ => ?_
  simp [hp.unitId_injective.eq_iff]

theorem rebindings_eq (hp : Poses jobs units p) (hx : p.Describes x a) :
    rebindings a jobs units =
      (p.neighbours x).map fun n => (n.job.id, p.unitId n.source, p.unitId n.target) := by
  have hmoves : (p.neighbours x).map (fun n => (n.job.id, p.unitId n.source, p.unitId n.target)) =
      (p.jobs.zip x).flatMap fun placed =>
        (((List.finRange p.units.length).filter (· ≠ placed.2)).map p.unitId).map fun target =>
          (placed.1.id, p.unitId placed.2, target) := by
    conv_rhs => rw [← List.zipIdx_map_fst 0 (p.jobs.zip x), List.flatMap_map]
    simp only [neighbours, neighboursAt, List.map_flatMap, List.map_map]
    rfl
  rw [hmoves, rebindings, ← hp.jobs_eq, ← hp.units_eq]
  refine flatMap_eq_of_forall₂ (describes_iff_forall₂.mp hx) fun job source hsource => ?_
  rw [hsource, Option.toList_some, List.flatMap_singleton, filter_unitId hp]

theorem trials_eq (hp : Poses jobs units p) (ha : a.Complete p.jobs p.units)
    (hx : p.Describes x a) :
    trials a jobs units = .ok ((p.neighbours x).map (·.move x)) := by
  rw [trials, rebindings_eq hp hx]
  refine mapM_eq_ok_iff.mpr ?_
  rw [List.forall₂_map_left_iff, List.forall₂_map_right_iff, List.forall₂_same]
  intro n hn
  have hr := (mem_neighbours_iff.mp hn).rebinds hp ha hx
  have hvalue := makespan_eq hp (ha.assign hr.job_mem hr.target_mem) hr.describes
  simp only [hvalue, bind, Except.bind, pure, Except.pure]
  rfl

/-- A move of the search is the first of the best that the plain search tries. -/
theorem firstLeast_of_step? [LawfulQuantity T] {move : Move T} {next : p.Placement}
    (hscore : ∀ n ∈ p.neighbours x, Quantity.Same n.score (p.makespan (n.apply x)))
    (h : p.step? x = some (move, next)) :
    FirstLeast Move.makespan ((p.neighbours x).map (·.move x)) move := by
  obtain ⟨n, hbest, rfl, -, rfl⟩ := step?_eq_some_iff.mp h
  have hnonneg : ∀ n ∈ p.neighbours x, 0 ≤ n.score := fun n hn =>
    Quantity.le_trans (Quantity.nonneg_largest _) (hscore n hn).2
  have hfirst : FirstLeast Neighbour.score (p.neighbours x) n :=
    .of_filter hnonneg (Quantity.nonneg_largest _)
      (.of_best? (fun m hm => hnonneg m (List.mem_filter.mp hm).1) hbest)
  have hlowest : FirstLeast (fun n => (n.move x).makespan) (p.neighbours x) n :=
    hfirst.congr hscore
  exact hlowest.map

/-- The search makes the moves of the plain search if every score is the makespan after the move. -/
theorem descends_descend [LawfulQuantity T] (hp : Poses jobs units p)
    (hscore : ∀ y : p.Placement, y.length = p.jobs.length →
      ∀ n ∈ p.neighbours y, Quantity.Same n.score (p.makespan (n.apply y)))
    (ha : a.Complete p.jobs p.units) (hx : p.Describes x a) :
    Descends jobs units cap made a (p.makespan x) (p.descend cap made x).1
      (replayed a (p.descend cap made x).1) (p.makespan (p.descend cap made x).2.1)
      (p.descend cap made x).2.2 := by
  induction made, x using descend.induct p cap generalizing a with
  | case1 made x hc =>
    rw [descend_of_capped hc]
    refine .capped ?_
    by_contra hroom
    exact not_capped_iff.mpr (by simpa using hroom) hc
  | case2 made x hc hnone =>
    rw [descend_of_none hc hnone]
    refine .settled (not_capped_iff.mp hc) (trials_eq hp ha hx) fun move hfirst hlower => ?_
    obtain ⟨n, hn, rfl⟩ := List.mem_map.mp hfirst.mem
    exact not_lowers_of_step? (hscore x hx.length_eq) hnone n hn hlower
  | case3 made x hc move next hsome _ _ _ _ ih =>
    obtain ⟨hmove, hlower⟩ := rebinds_of_step? hp ha hx hsome
    have hfirst := firstLeast_of_step? (hscore x hx.length_eq) hsome
    have htail := ih (ha.assign hmove.job_mem hmove.target_mem) hmove.describes
    rw [descend_of_some hc hsome]
    rw [← hmove.makespan_eq] at hlower htail
    exact .moved (not_capped_iff.mp hc) (trials_eq hp ha hx) hfirst hlower htail

end Problem

theorem Poses.optimize_steepest [LawfulQuantity T] {jobs : List (Job T)}
    {units : List (ExecutionUnit T)} {p : Problem T} (hp : Poses jobs units p) {bound : ℚ}
    {scale : Scale T bound} (hfits : p.Fits scale) {initial : Assignment}
    (hi : initial.Complete p.jobs p.units) (cap : Option Nat) :
    ∃ climb, optimize cap initial jobs units = .ok climb ∧
      climb.Steepest cap initial jobs units := by
  obtain ⟨x, hx⟩ := Problem.exists_describes hi
  obtain ⟨last, hassignment, -, -, -, hreplay, -⟩ := Problem.exists_replay hp hi hx cap
  refine ⟨_, optimize_eq hp hi hx cap, Problem.makespan_eq hp hi hx, ?_⟩
  rw [hassignment, hreplay.last_eq]
  exact Problem.descends_descend hp (fun y hlen => hfits.same_score hlen) hi hx

/-- In exact arithmetic the search ends, and it returns what the plain search does. -/
theorem optimize_eq_ok_iff_steepest (cap : Option Nat) (initial : Assignment)
    (jobs : List (Job Exact)) (units : List (ExecutionUnit Exact))
    (jobs_distinct : (jobs.map (·.id)).Nodup) (units_distinct : (units.map (·.id)).Nodup)
    (speed_pos : ∀ unit ∈ units, 0 < unit.speed) (complete : initial.Complete jobs units) :
    (∃ climb, optimize cap initial jobs units = .ok climb) ∧
      ∀ climb, optimize cap initial jobs units = .ok climb ↔
        climb.Steepest cap initial jobs units := by
  obtain ⟨p, hp⟩ := exists_poses jobs_distinct units_distinct speed_pos
  obtain ⟨bound, hfits⟩ := hp.exists_fits
  obtain ⟨climb, hrun, hsteepest⟩ := hp.optimize_steepest hfits (hp.complete complete) cap
  refine ⟨⟨climb, hrun⟩, fun other => ⟨fun hother => ?_, fun hother => ?_⟩⟩
  · obtain rfl := Except.ok.inj (hrun.symm.trans hother)
    exact hsteepest
  · rw [hrun, hsteepest.unique hother]

/-- Three jobs for two units, on which they take thirds and sevenths. -/
def thirdsAndSevenths : Pool Exact where
  jobs := [⟨0, "long", 4, 0, none, 4⟩, ⟨1, "middle", 3, 0, none, 3⟩, ⟨2, "short", 1, 0, none, 1⟩]
  units := [⟨0, "slow", Quantity.ofNat 3, 0⟩, ⟨1, "fast", Quantity.ofNat 7, 0⟩]

theorem optimize_eq_ok_iff_steepest_thirdsAndSevenths :
    (thirdsAndSevenths.jobs.map (·.id)).Nodup ∧ (thirdsAndSevenths.units.map (·.id)).Nodup ∧
      (∀ unit ∈ thirdsAndSevenths.units, 0 < unit.speed) ∧
      longAlone.Complete thirdsAndSevenths.jobs thirdsAndSevenths.units ∧
      ∃ climb,
        optimize none longAlone thirdsAndSevenths.jobs thirdsAndSevenths.units = .ok climb ∧
          climb.Steepest none longAlone thirdsAndSevenths.jobs thirdsAndSevenths.units := by
  have hj : (thirdsAndSevenths.jobs.map (·.id)).Nodup := by decide
  have hu : (thirdsAndSevenths.units.map (·.id)).Nodup := by decide
  have hs : ∀ unit ∈ thirdsAndSevenths.units, 0 < unit.speed := by decide +kernel
  have hc : longAlone.Complete thirdsAndSevenths.jobs thirdsAndSevenths.units :=
    ⟨.refl _, by decide⟩
  obtain ⟨⟨climb, hrun⟩, hiff⟩ := optimize_eq_ok_iff_steepest none longAlone
    thirdsAndSevenths.jobs thirdsAndSevenths.units hj hu hs hc
  exact ⟨hj, hu, hs, hc, climb, hrun, (hiff climb).mp hrun⟩

end JobAllocation.LocalSearch
