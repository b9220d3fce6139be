import JobAllocation.Pool
import JobAllocation.Proofs.Binary64Times
import JobAllocation.Proofs.KeptLoads
import JobAllocation.Proofs.Placements

/-!
# The log of a search is truthful

The moves of a search can be replayed on the assignment that it began with. Each leaves the unit
that has the job, states the makespan of the assignment that it leads to, and lowers it. Nothing is
assumed of the arithmetic: a move is made only after its makespan has been summed afresh.
-/
namespace JobAllocation.LocalSearch

variable {T : Type} [Quantity T]

/-- What `moves` do to an assignment with the makespan `current`: each leads to an assignment with
the makespan that it states, below the one before. -/
inductive Replay (jobs : List (Job T)) (units : List (ExecutionUnit T)) :
    Assignment → T → List (Move T) → Assignment → T → Prop where
  | nil {a : Assignment} {current : T} : Replay jobs units a current [] a current
  | cons {a last : Assignment} {current final : T} {move : Move T} {rest : List (Move T)}
      (bound : a.unitOf? move.job = some move.source)
      (leaves : move.source ≠ move.target)
      (value : makespan (a.assign move.job move.target) jobs units = .ok move.makespan)
      (lower : move.makespan < current)
      (tail : Replay jobs units (a.assign move.job move.target) move.makespan rest last final) :
      Replay jobs units a current (move :: rest) last final

/-- The assignment after some moves. -/
def replayed (a : Assignment) (moves : List (Move T)) : Assignment :=
  moves.foldl (fun a move => a.assign move.job move.target) a

theorem Replay.last_eq {jobs : List (Job T)} {units : List (ExecutionUnit T)}
    {a last : Assignment} {current final : T} {moves : List (Move T)}
    (h : Replay jobs units a current moves last final) : last = replayed a moves := by
  induction h with
  | nil => rfl
  | cons _ _ _ _ _ ih => rw [ih, replayed, replayed, List.foldl_cons]

/-- What a search reports of itself is so: its moves lead from the initial to the final assignment,
at the makespans that it states, and are no more than the cap. -/
structure Climb.Truthful (climb : Climb T) (cap : Option Nat) (initial : Assignment)
    (jobs : List (Job T)) (units : List (ExecutionUnit T)) : Prop where
  initial_value : LocalSearch.makespan initial jobs units = .ok climb.initialMakespan
  replay : Replay jobs units initial climb.initialMakespan climb.moves climb.assignment
    climb.makespan
  final_value : LocalSearch.makespan climb.assignment jobs units = .ok climb.makespan
  jobs_eq : climb.assignment.jobs = initial.jobs
  units_known : ∀ entry ∈ climb.assignment.entries, entry.2 ∈ units.map (·.id)
  within_cap : ∀ limit ∈ cap, climb.moves.length ≤ limit

namespace Problem

variable {jobs : List (Job T)} {units : List (ExecutionUnit T)} {p : Problem T}
  {x next : p.Placement} {a : Assignment} {move : Move T} {cap : Option Nat} {made : Nat}

theorem mem_of_bestNeighbour? {n : p.Neighbour} (h : p.bestNeighbour? x = some n) :
    n ∈ p.neighbours x ∧ n.score < p.makespan x := by
  have hm := Selection.mem_of_best? h
  rwa [List.mem_filter, decide_eq_true_eq] at hm

theorem step?_eq_some_iff : p.step? x = some (move, next) ↔
    ∃ n, p.bestNeighbour? x = some n ∧ next = n.apply x ∧ p.makespan next < p.makespan x ∧
      move = ⟨n.job.id, p.unitId n.source, p.unitId n.target, p.makespan next⟩ := by
  unfold step?
  cases hn : p.bestNeighbour? x with
  | none => simp
  | some n =>
    simp only [Option.some.injEq, exists_eq_left']
    split
    · next hlt =>
      constructor
      · intro h
        cases h
        exact ⟨rfl, hlt, rfl⟩
      · rintro ⟨rfl, -, rfl⟩
        rfl
    · next hlt =>
      constructor
      · intro h
        cases h
      · rintro ⟨rfl, hlower, -⟩
        exact absurd hlower hlt

theorem step?_eq_none_iff : p.step? x = none ↔
    ∀ n, p.bestNeighbour? x = some n → ¬ p.makespan (n.apply x) < p.makespan x := by
  unfold step?
  cases hn : p.bestNeighbour? x with
  | none => simp
  | some n => simp

/-- A move of the search is a rebinding of the assignment that its placement describes. -/
structure Rebinds (p : Problem T) (x : p.Placement) (a : Assignment) (move : Move T)
    (next : p.Placement) : Prop where
  bound : a.unitOf? move.job = some move.source
  leaves : move.source ≠ move.target
  job_mem : move.job ∈ a.jobs
  target_mem : move.target ∈ p.units.map (·.id)
  makespan_eq : move.makespan = p.makespan next
  describes : p.Describes next (a.assign move.job move.target)

theorem Neighbour.Moves.rebinds {n : p.Neighbour} (hn : n.Moves x) (hp : Poses jobs units p)
    (ha : a.Complete p.jobs p.units) (hx : p.Describes x a) :
    p.Rebinds x a ⟨n.job.id, p.unitId n.source, p.unitId n.target, p.makespan (n.apply x)⟩
      (n.apply x) where
  bound := hx.bound n.index n.job n.source hn.job_at hn.source_at
  leaves heq := hn.target_ne (hp.unitId_injective heq).symm
  job_mem := ha.mem_jobs (List.mem_of_getElem? hn.job_at)
  target_mem := Poses.unitId_mem n.target
  makespan_eq := rfl
  describes := hx.assign hp hn.job_at n.target

theorem rebinds_of_step? (hp : Poses jobs units p) (ha : a.Complete p.jobs p.units)
    (hx : p.Describes x a) (h : p.step? x = some (move, next)) :
    p.Rebinds x a move next ∧ p.makespan next < p.makespan x := by
  obtain ⟨n, hbest, rfl, hlower, rfl⟩ := step?_eq_some_iff.mp h
  exact ⟨(mem_neighbours_iff.mp (mem_of_bestNeighbour? hbest).1).rebinds hp ha hx, hlower⟩

theorem not_capped_iff : ¬ capped cap made = true ↔ ∀ limit ∈ cap, made < limit := by
  cases cap <;> simp [capped]

/-- The moves of a search lead to the assignment that its last placement describes. -/
theorem exists_replay_descend (hp : Poses jobs units p) (ha : a.Complete p.jobs p.units)
    (hx : p.Describes x a) (hcap : ∀ limit ∈ cap, made ≤ limit) :
    ∃ last, p.Describes (p.descend cap made x).2.1 last ∧ last.Complete p.jobs p.units ∧
      last.jobs = a.jobs ∧
      Replay jobs units a (p.makespan x) (p.descend cap made x).1 last
        (p.makespan (p.descend cap made x).2.1) ∧
      ∀ limit ∈ cap, made + (p.descend cap made x).1.length ≤ limit := by
  -- By the recursion of the search, with the assignment of the current placement kept in step.
  induction made, x using descend.induct p cap generalizing a with
  | case1 made x h =>
    rw [descend_of_capped h]
    exact ⟨a, hx, ha, rfl, .nil, hcap⟩
  | case2 made x hc hnone =>
    rw [descend_of_none hc hnone]
    exact ⟨a, hx, ha, rfl, .nil, hcap⟩
  | case3 made x hc move next hsome _ _ _ _ ih =>
    obtain ⟨hmove, hlower⟩ := rebinds_of_step? hp ha hx hsome
    have hroom : ∀ limit ∈ cap, made + 1 ≤ limit := not_capped_iff.mp hc
    have hcomplete := ha.assign hmove.job_mem hmove.target_mem
    obtain ⟨last, hdescribes, hlast, hjobs, hreplay, hlength⟩ := ih hcomplete hmove.describes hroom
    rw [descend_of_some hc hsome]
    refine ⟨last, hdescribes, hlast, hjobs.trans (Assignment.jobs_assign hmove.job_mem _), ?_, ?_⟩
    · refine .cons hmove.bound hmove.leaves ?_ (hmove.makespan_eq ▸ hlower) ?_
      · rw [hmove.makespan_eq]
        exact makespan_eq hp hcomplete hmove.describes
      · rw [hmove.makespan_eq]
        exact hreplay
    · intro limit hl
      have := hlength limit hl
      rw [List.length_cons]
      omega

/-- The assignment that a search returns is the one that its moves lead to. -/
theorem exists_replay {initial : Assignment} (hp : Poses jobs units p)
    (hi : initial.Complete p.jobs p.units) (hx : p.Describes x initial) (cap : Option Nat) :
    ∃ last, p.rebind initial (p.descend cap 0 x).2.1 = last ∧
      p.Describes (p.descend cap 0 x).2.1 last ∧ last.Complete p.jobs p.units ∧
      last.jobs = initial.jobs ∧
      Replay jobs units initial (p.makespan x) (p.descend cap 0 x).1 last
        (p.makespan (p.descend cap 0 x).2.1) ∧
      ∀ limit ∈ cap, (p.descend cap 0 x).1.length ≤ limit := by
  obtain ⟨last, hdescribes, hlast, hjobs, hreplay, hlength⟩ :=
    exists_replay_descend hp hi hx fun limit (_ : limit ∈ cap) => Nat.zero_le limit
  refine ⟨last, rebind_eq hlast hdescribes hp.jobs_distinct hjobs.symm, hdescribes, hlast, hjobs,
    hreplay, fun limit hl => ?_⟩
  have := hlength limit hl
  rwa [Nat.zero_add] at this

end Problem

/-- What a search returns, with the placements at its ends. -/
theorem optimize_eq {jobs : List (Job T)} {units : List (ExecutionUnit T)} {p : Problem T}
    (hp : Poses jobs units p) {initial : Assignment} (hi : initial.Complete p.jobs p.units)
    {x : p.Placement} (hx : p.Describes x initial) (cap : Option Nat) :
    optimize cap initial jobs units = .ok {
      assignment := p.rebind initial (p.descend cap 0 x).2.1
      initialMakespan := p.makespan x
      makespan := p.makespan (p.descend cap 0 x).2.1
      moves := (p.descend cap 0 x).1
      converged := (p.descend cap 0 x).2.2 } := by
  rw [optimize_eq_descend, hp.ofInput_eq, Except.bind, Problem.placementOf_eq hp hi hx, Except.map]

/-- A search ends, and its log is truthful, whatever the arithmetic. -/
theorem exists_truthful_climb (cap : Option Nat) (initial : Assignment) (jobs : List (Job T))
    (units : List (ExecutionUnit T)) (jobs_distinct : (jobs.map (·.id)).Nodup)
    (units_distinct : (units.map (·.id)).Nodup) (speed_pos : ∀ unit ∈ units, 0 < unit.speed)
    (complete : initial.Complete jobs units) :
    ∃ climb, optimize cap initial jobs units = .ok climb ∧
      climb.Truthful cap initial jobs units := by
  obtain ⟨p, hp⟩ := exists_poses jobs_distinct units_distinct speed_pos
  have hi := hp.complete complete
  obtain ⟨x, hx⟩ := Problem.exists_describes hi
  obtain ⟨last, hassignment, hdescribes, hlast, hjobs, hreplay, hlength⟩ :=
    Problem.exists_replay hp hi hx cap
  refine ⟨_, optimize_eq hp hi hx cap, ?_⟩
  rw [hassignment]
  constructor
  · exact Problem.makespan_eq hp hi hx
  · exact hreplay
  · exact Problem.makespan_eq hp hlast hdescribes
  · exact hjobs
  · intro entry he
    exact (hp.units_perm.map _).subset (hlast.units_known entry he)
  · exact hlength

/-- Two jobs for two units, on which they take times that are rounded. -/
def lopsided : Pool Binary64 where
  jobs := [⟨0, "long", 300, 0, none, 300⟩, ⟨1, "short", 200, 0, none, 200⟩]
  units := [⟨0, "slow", Quantity.ofNat 30, 0⟩, ⟨1, "fast", Quantity.ofNat 70, 0⟩]

/-- Both jobs begin on one unit. -/
def crowded : Assignment := ⟨[(1, 0), (0, 0)]⟩

theorem exists_truthful_climb_crowded :
    (lopsided.jobs.map (·.id)).Nodup ∧ (lopsided.units.map (·.id)).Nodup ∧
      (∀ unit ∈ lopsided.units, 0 < unit.speed) ∧
      crowded.Complete lopsided.jobs lopsided.units ∧
      ∃ climb, optimize (some 1) crowded lopsided.jobs lopsided.units = .ok climb ∧
        climb.Truthful (some 1) crowded lopsided.jobs lopsided.units := by
  have hj : (lopsided.jobs.map (·.id)).Nodup := by decide
  have hu : (lopsided.units.map (·.id)).Nodup := by decide
  have hs : ∀ unit ∈ lopsided.units, 0 < unit.speed := by decide +kernel
  have hc : crowded.Complete lopsided.jobs lopsided.units := ⟨.swap 0 1 [], by decide⟩
  refine ⟨hj, hu, hs, hc, ?_⟩
  exact exists_truthful_climb (some 1) crowded lopsided.jobs lopsided.units hj hu hs hc

end JobAllocation.LocalSearch
