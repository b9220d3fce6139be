import JobAllocation.Proofs.MoveLog
import JobAllocation.Proofs.UnroundedLoads
import JobAllocation.Proofs.ValidPool

/-!
# Where a search ends

A search that ends by itself has met an assignment that it makes no move from. With loads that are
not rounded no single move lowers the makespan of such an assignment. With rounded loads one may: a
move is scored at adjusted loads, these differ in the last digit from sums made afresh, and a move
whose adjusted load just reaches the makespan is not tried.
-/
namespace JobAllocation.LocalSearch

variable {T : Type} [Quantity T] {jobs : List (Job T)} {units : List (ExecutionUnit T)}
  {p : Problem T} {a initial : Assignment} {cap : Option Nat} {made : Nat}

/-- Rebinding one job to one unit never lowers the makespan. -/
def LocallyOptimal (a : Assignment) (current : T) (jobs : List (Job T))
    (units : List (ExecutionUnit T)) : Prop :=
  ∀ job ∈ jobs, ∀ unit ∈ units,
    ∃ value, makespan (a.assign job.id unit.id) jobs units = .ok value ∧ ¬ value < current

namespace Problem

variable {x : p.Placement} {n : p.Neighbour}

/-- The makespan after the move, summed afresh, is below the one before. -/
def Neighbour.Lowers (n : p.Neighbour) (x : p.Placement) : Prop :=
  p.makespan (n.apply x) < p.makespan x

/-- What keeps the search from a move: the adjusted load of one of its units reaches the makespan,
or the first of the moves with the lowest score is undone. -/
inductive Neighbour.Missed (n : p.Neighbour) (x : p.Placement) : Prop where
  | source (reaches : p.makespan x ≤ p.load x n.source - p.duration n.job n.source)
  | target (reaches : p.makespan x ≤ p.load x n.target + p.duration n.job n.target)
  | undone (best : p.Neighbour) (first : p.bestNeighbour? x = some best) (kept : ¬ best.Lowers x)

theorem locallyOptimal_iff (hp : Poses jobs units p) (ha : a.Complete p.jobs p.units)
    (hx : p.Describes x a) :
    LocallyOptimal a (p.makespan x) jobs units ↔ ∀ n ∈ p.neighbours x, ¬ n.Lowers x := by
  constructor
  · intro h n hn
    have hmoves := mem_neighbours_iff.mp hn
    have hrebinds := hmoves.rebinds hp ha hx
    have hjob := hp.jobs_perm.subset (List.mem_of_getElem? hmoves.job_at)
    have hunit := hp.units_perm.subset (List.get_mem p.units n.target)
    obtain ⟨value, hvalue, hlower⟩ := h n.job hjob _ hunit
    have hafter := makespan_eq hp (ha.assign hrebinds.job_mem hrebinds.target_mem)
      hrebinds.describes
    obtain rfl := Except.ok.inj (hvalue.symm.trans hafter)
    exact hlower
  · intro h job hj unit hu
    obtain ⟨i, hi⟩ := List.mem_iff_getElem?.mp (hp.jobs_perm.symm.subset hj)
    obtain ⟨u, hid⟩ := Poses.exists_unitId (hp.units_perm.symm.subset hu)
    have hcomplete := ha.assign (ha.mem_jobs (List.mem_of_getElem? hi)) (Poses.unitId_mem u)
    rw [← hid]
    refine ⟨_, makespan_eq hp hcomplete (hx.assign hp hi u), ?_⟩
    have hlt : i < x.length := hx.length_eq ▸ (List.getElem?_eq_some_iff.mp hi).1
    by_cases hs : u = x[i]
    · rw [hs, List.set_getElem_self]
      exact Quantity.lt_irrefl _
    · obtain ⟨score, hmoves⟩ := exists_moves hi (List.getElem?_eq_getElem hlt) hs
      exact h _ (mem_neighbours_iff.mpr hmoves)

theorem step?_of_converged (h : (p.descend cap made x).2.2 = true) :
    p.step? (p.descend cap made x).2.1 = none := by
  induction made, x using descend.induct p cap with
  | case1 made x hc =>
    rw [descend_of_capped hc] at h
    contradiction
  | case2 made x hc hnone =>
    rw [descend_of_none hc hnone]
    exact hnone
  | case3 made x hc move next hsome _ _ _ _ ih =>
    rw [descend_of_some hc hsome] at h ⊢
    exact ih h

/-- Without a cap a search ends by itself. -/
theorem converged_of_uncapped (made : Nat) (x : p.Placement) :
    (p.descend none made x).2.2 = true := by
  induction made, x using descend.induct p none with
  | case1 made x hc => contradiction
  | case2 made x hc hnone => rw [descend_of_none hc hnone]
  | case3 made x hc move next hsome _ _ _ _ ih =>
    rw [descend_of_some hc hsome]
    exact ih

/-- A move that is scored below the makespan is tried, if no other one is. -/
theorem exists_best (hn : n ∈ p.neighbours x) (h : n.score < p.makespan x) :
    ∃ best, p.bestNeighbour? x = some best := by
  refine Option.ne_none_iff_exists'.mp fun hnone => ?_
  have hempty : ((p.neighbours x).filter fun n => n.score < p.makespan x) = [] :=
    Selection.best?_eq_none_iff.mp hnone
  have hmem : n ∈ (p.neighbours x).filter fun n => n.score < p.makespan x :=
    List.mem_filter.mpr ⟨hn, decide_eq_true h⟩
  rw [hempty] at hmem
  contradiction

/-- Moves that are scored at the makespans after them are not missed. -/
theorem not_lowers_of_step? (hscore : ∀ n ∈ p.neighbours x,
      Quantity.Same n.score (p.makespan (n.apply x)))
    (hstep : p.step? x = none) : ∀ n ∈ p.neighbours x, ¬ n.Lowers x := by
  intro n hn hlower
  obtain ⟨best, hbest⟩ := exists_best hn (Quantity.lt_of_le_of_lt (hscore n hn).1 hlower)
  obtain ⟨hmem, hbelow⟩ := mem_of_bestNeighbour? hbest
  exact step?_eq_none_iff.mp hstep best hbest
    (Quantity.lt_of_le_of_lt (hscore best hmem).2 hbelow)

/-- Every move that would have lowered the makespan was missed. -/
theorem missed_of_step? [LawfulQuantity T] (ht : p.Timed) (hlen : x.length = p.jobs.length)
    (hstep : p.step? x = none) (hn : n ∈ p.neighbours x) (hlower : n.Lowers x) : n.Missed x := by
  have hmoves := mem_neighbours_iff.mp hn
  by_cases hs : p.makespan x ≤ p.load x n.source - p.duration n.job n.source
  · exact .source hs
  by_cases hd : p.makespan x ≤ p.load x n.target + p.duration n.job n.target
  · exact .target hd
  obtain ⟨best, hbest⟩ := exists_best hn ((hmoves.score_lt_iff ht hlen hlower).mpr ⟨hs, hd⟩)
  exact .undone best hbest (step?_eq_none_iff.mp hstep best hbest)

end Problem

/-- What a search returns, as a placement that it makes no move from if it ended by itself. -/
theorem exists_climb (hp : Poses jobs units p) (hi : initial.Complete p.jobs p.units)
    (cap : Option Nat) :
    ∃ (climb : Climb T) (x : p.Placement), optimize cap initial jobs units = .ok climb ∧
      climb.assignment.Complete p.jobs p.units ∧ p.Describes x climb.assignment ∧
      climb.makespan = p.makespan x ∧ (climb.converged = true → p.step? x = none) ∧
      (cap = none → climb.converged = true) := by
  obtain ⟨x, hx⟩ := Problem.exists_describes hi
  obtain ⟨last, hassignment, hdescribes, hlast, -⟩ := Problem.exists_replay hp hi hx cap
  refine ⟨_, _, optimize_eq hp hi hx cap, ?_, ?_, rfl, Problem.step?_of_converged, ?_⟩
  · rw [hassignment]
    exact hlast
  · rw [hassignment]
    exact hdescribes
  · rintro rfl
    exact Problem.converged_of_uncapped 0 x

theorem Poses.timed {pool : Pool T} [LawfulQuantity T] (h : Poses pool.jobs pool.units p)
    (hv : pool.Valid) : p.Timed := by
  intro job _ u
  have hunit := hv.units_valid _ (h.units_perm.subset (List.get_mem p.units u))
  exact LawfulQuantity.work_nonneg job.length hunit.speed_finite hunit.speed_pos

/-- A move that lowers the makespan where a search has ended by itself is one that rounding has made
it miss. Without such a move the search is at a local optimum, and there is none if the durations
need no rounding. -/
theorem locallyOptimal_iff_not_missed (pool : Pool Binary64) (valid : pool.check = .ok ())
    (initial : Assignment) (complete : initial.Complete pool.jobs pool.units) (cap : Option Nat) :
    ∃ (climb : Climb Binary64) (p : Problem Binary64) (x : p.Placement),
      optimize cap initial pool.jobs pool.units = .ok climb ∧
      Problem.ofInput pool.jobs pool.units = .ok p ∧ p.placementOf climb.assignment = .ok x ∧
      (cap = none → climb.converged = true) ∧
      (climb.converged = true → ∀ n ∈ p.neighbours x, n.Lowers x → n.Missed x) ∧
      (climb.converged = true →
        (LocallyOptimal climb.assignment climb.makespan pool.jobs pool.units ↔
          ∀ n ∈ p.neighbours x, n.Lowers x → ¬ n.Missed x)) ∧
      ∀ k, Unrounded k pool.jobs pool.units → climb.converged = true →
        LocallyOptimal climb.assignment climb.makespan pool.jobs pool.units := by
  have hv := Pool.valid_of_check valid
  obtain ⟨p, hp⟩ := exists_poses hv.jobs_distinct hv.units_distinct
    fun unit hu => (hv.units_valid unit hu).speed_pos
  obtain ⟨climb, x, hrun, hlast, hx, hmakespan, hstep, huncapped⟩ :=
    exists_climb hp (hp.complete complete) cap
  have hlocal := Problem.locallyOptimal_iff hp hlast hx
  have ht := hp.timed hv
  have hmissed (hconverged : climb.converged = true) (n : p.Neighbour) (hn : n ∈ p.neighbours x)
      (hlower : n.Lowers x) : n.Missed x :=
    Problem.missed_of_step? ht hx.length_eq (hstep hconverged) hn hlower
  rw [← hmakespan] at hlocal
  refine ⟨climb, p, x, hrun, hp.ofInput_eq, Problem.placementOf_eq hp hlast hx, huncapped, hmissed,
    ?_, ?_⟩
  · intro hconverged
    rw [hlocal]
    constructor
    · intro h n hn hlower
      exact absurd hlower (h n hn)
    · intro h n hn hlower
      exact h n hn hlower (hmissed hconverged n hn hlower)
  · intro k hk hconverged
    have hfits := hk.fits hp ht
    rw [hlocal]
    exact Problem.not_lowers_of_step? (hfits.same_score hx.length_eq) (hstep hconverged)

/-- Two jobs that take a whole number of seconds on either unit. -/
def wholeSeconds : Pool Binary64 where
  jobs := [⟨0, "long", 300, 0, none, 300⟩, ⟨1, "short", 200, 0, none, 200⟩]
  units := [⟨0, "slow", Quantity.ofNat 50, 0⟩, ⟨1, "fast", Quantity.ofNat 100, 0⟩]

theorem locallyOptimal_iff_not_missed_wholeSeconds :
    wholeSeconds.check = .ok () ∧ crowded.Complete wholeSeconds.jobs wholeSeconds.units ∧
      ∃ climb, optimize none crowded wholeSeconds.jobs wholeSeconds.units = .ok climb ∧
        LocallyOptimal climb.assignment climb.makespan wholeSeconds.jobs wholeSeconds.units := by
  have hcheck : wholeSeconds.check = .ok () :=
    wholeSeconds.check_eq_ok_iff.mpr (by decide +kernel)
  have hcomplete : crowded.Complete wholeSeconds.jobs wholeSeconds.units :=
    ⟨.swap 0 1 [], by decide⟩
  -- The rank of one second is 2 ^ 1074.
  have hwhole : Unrounded 1074 wholeSeconds.jobs wholeSeconds.units :=
    ⟨by decide, by decide +kernel, by decide +kernel⟩
  obtain ⟨climb, p, x, hrun, -, -, hconverged, -, -, hoptimal⟩ :=
    locallyOptimal_iff_not_missed wholeSeconds hcheck crowded hcomplete none
  exact ⟨hcheck, hcomplete, climb, hrun, hoptimal 1074 hwhole (hconverged rfl)⟩

/-- The job of 4 takes 0.8 on the unit that has it. The others take 0.3 and 0.1 on theirs, to which
it would add 0.4. -/
def lastDigit : Pool Binary64 where
  jobs := [⟨0, "long", 4, 0, none, 4⟩, ⟨1, "middle", 3, 0, none, 3⟩, ⟨2, "short", 1, 0, none, 1⟩]
  units := [⟨0, "slow", Quantity.ofNat 5, 0⟩, ⟨1, "fast", Quantity.ofNat 10, 0⟩]

def longAlone : Assignment := ⟨[(0, 0), (1, 1), (2, 1)]⟩

namespace LastDigit

def problem : Problem Binary64 := ⟨lastDigit.jobs, lastDigit.units⟩

def before : List (Fin 2) := [0, 1, 1]

def after : List (Fin 2) := [1, 1, 1]

theorem poses : Poses lastDigit.jobs lastDigit.units problem :=
  poses_of_sorted (by decide) (by decide) (by decide +kernel)

theorem complete : longAlone.Complete problem.jobs problem.units := ⟨.refl _, by decide⟩

theorem describes : problem.Describes before longAlone :=
  Problem.describes_iff_forall₂.mpr (.cons rfl (.cons rfl (.cons rfl .nil)))

theorem step?_eq_none : problem.step? before = none := by
  rw [← Option.isNone_iff_eq_none]
  decide +kernel

theorem after_lt_before : problem.makespan after < problem.makespan before := by decide +kernel

theorem exists_lowers : ∃ n ∈ problem.neighbours before, n.Lowers before := by
  have hne : (1 : Fin 2) ≠ 0 := by decide
  obtain ⟨score, hmoves⟩ := Problem.exists_moves (p := problem) (x := before) (i := 0) rfl rfl hne
  exact ⟨_, Problem.mem_neighbours_iff.mpr hmoves, after_lt_before⟩

end LastDigit

/-- Added to their sum, 0.4 makes 0.8, which is what the makespan is already. In the order of jobs
the three make a little less. -/
theorem not_locallyOptimal_lastDigit :
    lastDigit.check = .ok () ∧ longAlone.Complete lastDigit.jobs lastDigit.units ∧
      ∃ climb, optimize none longAlone lastDigit.jobs lastDigit.units = .ok climb ∧
        climb.converged = true ∧
        ¬ LocallyOptimal climb.assignment climb.makespan lastDigit.jobs lastDigit.units := by
  have hcheck : lastDigit.check = .ok () := lastDigit.check_eq_ok_iff.mpr (by decide +kernel)
  have hrun := optimize_eq LastDigit.poses LastDigit.complete LastDigit.describes none
  have hdescend : LastDigit.problem.descend none 0 LastDigit.before =
      ([], LastDigit.before, true) :=
    Problem.descend_of_none (by decide) LastDigit.step?_eq_none
  rw [hdescend] at hrun
  refine ⟨hcheck, LastDigit.complete, _, hrun, rfl, ?_⟩
  rw [Problem.rebind_eq LastDigit.complete LastDigit.describes (by decide) rfl,
    Problem.locallyOptimal_iff LastDigit.poses LastDigit.complete LastDigit.describes]
  intro h
  obtain ⟨n, hn, hlowers⟩ := LastDigit.exists_lowers
  exact h n hn hlowers

end JobAllocation.LocalSearch
