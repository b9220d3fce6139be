import JobAllocation.Metrics
import JobAllocation.Proofs.CompleteAssignment
import JobAllocation.Proofs.ExactTimes
import Mathlib.Algebra.BigOperators.Group.List.Basic
import Mathlib.Tactic.Linarith
import Mathlib.Tactic.Ring

/-!
# One unit

On one unit a prompt plan runs one job after the other, and the order of the jobs is all there is to
choose. If every job has arrived by the time the unit is free, it is never idle. A job that runs
early is then waited for by all later ones, so what a plan costs is a sum of lengths, each counted
as often as there are jobs from it on.
-/
namespace JobAllocation

namespace Exact

/-- Both are rational, and the first is at most the second. -/
def NoMore (x y : Exact) : Prop := ∃ a b : Rat, x = rational a ∧ y = rational b ∧ a ≤ b

/-- The number, zero for what never comes. -/
def value : Exact → Rat
  | rational q => q
  | never => 0

theorem eq_rational_of_isFinite {x : Exact} (h : Quantity.isFinite x = true) :
    x = rational x.value := by
  cases x with
  | rational q => rfl
  | never => cases h

theorem value_pos {x : Exact} (h : x = rational x.value) (hx : 0 < x) : 0 < x.value := by
  rw [h] at hx
  exact rational_lt_iff.mp hx

theorem larger_rational (x y : Rat) :
    Quantity.larger (rational x) (rational y) = rational (max x y) := by
  have hx : rational x ≤ rational x := rational_le_iff.mpr (le_refl x)
  by_cases h : x < y
  · rw [Quantity.larger, if_pos (rational_lt_iff.mpr h), max_eq_right h.le]
  · rw [Quantity.larger, if_neg (mt rational_lt_iff.mp h), if_pos hx, max_eq_left (not_lt.mp h)]

theorem total_map_rational (qs : List Rat) :
    Quantity.total (qs.map rational) = rational qs.sum := by
  have key (init : Rat) :
      (qs.map rational).foldl (· + ·) (rational init) = rational (init + qs.sum) := by
    induction qs generalizing init with
    | nil => simp
    | cons q qs ih =>
      rw [List.map_cons, List.foldl_cons, List.sum_cons, ← add_assoc]
      exact ih (init + q)
  have hzero := key 0
  rwa [zero_add] at hzero

end Exact

theorem advanceUnit_single {T : Type} [Quantity T] (unit : ExecutionUnit T) (time : T) :
    advanceUnit [unit] unit.id time = [unit.advanceTo time] := by
  rw [advanceUnit, List.map_singleton, if_pos rfl]

/-- A unit that is kept busy until after it was free is free from then on. -/
theorem ExecutionUnit.ready_advanceTo_of_le {unit : ExecutionUnit Exact} {time : Exact}
    (h : unit.ready ≤ time) : (unit.advanceTo time).ready = time := by
  rw [advanceTo_ready]
  split
  · rfl
  · next hlt =>
    refine Exact.eq_of_same ⟨h, ?_⟩
    by_contra hn
    exact hlt ((Quantity.lt_iff _ _).mpr ⟨h, hn⟩)

/-- The completions of jobs that a unit, free from `time` on, runs in turn, each once it has
arrived. -/
def oneByOne (unit : UnitId) (speed : Rat) : Rat → List (Job Exact) → List (Completion Exact)
  | _, [] => []
  | time, job :: rest =>
    let start := max time job.arrival.value
    let finish := start + job.length / speed
    ⟨job.id, unit, .rational start, .rational finish⟩ :: oneByOne unit speed finish rest

theorem map_job_oneByOne (unit : UnitId) (speed time : Rat) (order : List (Job Exact)) :
    (oneByOne unit speed time order).map (·.job) = order.map (·.id) := by
  induction order generalizing time with
  | nil => rfl
  | cons job rest ih => rw [oneByOne, List.map_cons, List.map_cons, ih]

theorem le_finish_oneByOne {speed : Rat} (hs : 0 ≤ speed) (time : Rat) (job : Job Exact) :
    time ≤ max time job.arrival.value + job.length / speed :=
  (le_max_left _ _).trans (le_add_of_nonneg_right (div_nonneg job.length.cast_nonneg hs))

/-- Each job with its completion, on a unit that is free from `time` on and never idle. -/
def backToBack (unit : UnitId) (speed : Rat) :
    Rat → List (Job Exact) → List (Completion Exact × Job Exact)
  | _, [] => []
  | time, job :: rest =>
    let finish := time + job.length / speed
    (⟨job.id, unit, .rational time, .rational finish⟩, job) :: backToBack unit speed finish rest

theorem map_snd_backToBack (unit : UnitId) (speed time : Rat) (order : List (Job Exact)) :
    (backToBack unit speed time order).map (·.2) = order := by
  induction order generalizing time with
  | nil => rfl
  | cons job rest ih => rw [backToBack, List.map_cons, ih]

theorem job_eq_of_mem_backToBack {unit : UnitId} {speed time : Rat} {order : List (Job Exact)}
    {run : Completion Exact × Job Exact} (h : run ∈ backToBack unit speed time order) :
    run.1.job = run.2.id := by
  induction order generalizing time with
  | nil => simp [backToBack] at h
  | cons job rest ih =>
    rcases List.mem_cons.mp h with rfl | h
    · rfl
    · exact ih h

/-- What a prompt plan on one unit does to the unit: it is free again when the job is done. -/
theorem Prompt.exists_oneByOne {jobs : List (Job Exact)} {units : List (ExecutionUnit Exact)}
    {plan : List (Completion Exact)} (hp : Prompt jobs units plan) {unit : ExecutionUnit Exact}
    (hu : units = [unit]) {time speed : Rat} (hready : unit.ready = .rational time)
    (hspeed : unit.speed = .rational speed) (hpos : 0 < speed)
    (ha : ∀ job ∈ jobs, job.arrival = .rational job.arrival.value) :
    ∃ order, order ⊆ jobs ∧ plan = oneByOne unit.id speed time order := by
  induction hp generalizing unit time with
  | nil => exact ⟨[], List.nil_subset _, rfl⟩
  | @cons units job first c rest job_mem unit_mem job_eq unit_eq start_same finish_eq _ ih =>
    subst hu
    obtain rfl := List.mem_singleton.mp unit_mem
    have hstart : c.start = .rational (max time job.arrival.value) := by
      rw [Exact.eq_of_same start_same, hready, ha job job_mem, Exact.larger_rational]
      rfl
    have hfinish : c.finish = .rational (max time job.arrival.value + job.length / speed) := by
      rw [finish_eq, hstart, hspeed]
      rfl
    have hle : first.ready ≤ c.finish := by
      rw [hready, hfinish]
      exact Exact.rational_le_iff.mpr (le_finish_oneByOne hpos.le time job)
    obtain ⟨order, hsub, rfl⟩ := ih (advanceUnit_single first c.finish)
      ((ExecutionUnit.ready_advanceTo_of_le hle).trans hfinish)
      ((first.advanceTo_speed _).trans hspeed)
    have hc : c = ⟨job.id, first.id, .rational (max time job.arrival.value),
        .rational (max time job.arrival.value + job.length / speed)⟩ := by
      rw [← job_eq, ← unit_eq, ← hstart, ← hfinish]
    refine ⟨job :: order, List.cons_subset.mpr ⟨job_mem, hsub⟩, ?_⟩
    rw [oneByOne, first.advanceTo_id]
    exact congrArg (· :: _) hc

/-- A unit that is not free before every job has arrived is never idle. -/
theorem oneByOne_eq_backToBack {unit : UnitId} {speed time : Rat} (hpos : 0 < speed)
    {order : List (Job Exact)} (ha : ∀ job ∈ order, job.arrival.value ≤ time) :
    oneByOne unit speed time order = (backToBack unit speed time order).map (·.1) := by
  induction order generalizing time with
  | nil => rfl
  | cons job rest ih =>
    obtain ⟨hjob, hrest⟩ := List.forall_mem_cons.mp ha
    have hlater : ∀ other ∈ rest, other.arrival.value ≤ time + job.length / speed := fun other ho =>
      (hrest other ho).trans (le_add_of_nonneg_right (div_nonneg job.length.cast_nonneg hpos.le))
    rw [oneByOne, backToBack, max_eq_left hjob, List.map_cons, ih hlater]

/-- The lengths, each counted once for its job and once for every later one. -/
def weighted : List Nat → Nat
  | [] => 0
  | n :: rest => n * (rest.length + 1) + weighted rest

/-- How long each job has been in the system when it is done, if it came at `since`. -/
def delays (speed : Rat) (since : Job Exact → Rat) : Rat → List (Job Exact) → List Rat
  | _, [] => []
  | time, job :: rest =>
    let finish := time + job.length / speed
    (finish - since job) :: delays speed since finish rest

theorem sum_delays (speed : Rat) (since : Job Exact → Rat) (time : Rat)
    (order : List (Job Exact)) :
    (delays speed since time order).sum =
      order.length * time + weighted (order.map (·.length)) / speed - (order.map since).sum := by
  induction order generalizing time with
  | nil => simp [delays, weighted]
  | cons job rest ih =>
    rw [delays, List.sum_cons, ih, List.map_cons, List.map_cons, weighted, List.sum_cons,
      List.length_cons, List.length_map]
    push_cast
    ring

/-- Moving a job to the front costs nothing if no job before it is shorter. -/
theorem weighted_front {n : Nat} {front : List Nat} (h : ∀ m ∈ front, n ≤ m) (back : List Nat) :
    weighted (n :: (front ++ back)) ≤ weighted (front ++ n :: back) := by
  induction front with
  | nil => exact Nat.le_refl _
  | cons m front ih =>
    obtain ⟨hm, hfront⟩ := List.forall_mem_cons.mp h
    have hrest := ih hfront
    simp only [List.cons_append, weighted, List.length_cons, List.length_append] at hrest ⊢
    linarith

/-- Lengths in ascending order weigh least. -/
theorem weighted_le_of_perm {xs ys : List Nat} (hs : xs.Pairwise (· ≤ ·)) (hp : xs.Perm ys) :
    weighted xs ≤ weighted ys := by
  induction xs generalizing ys with
  | nil => rw [hp.nil_eq]
  | cons n rest ih =>
    obtain ⟨hn, hrest⟩ := List.pairwise_cons.mp hs
    obtain ⟨front, back, rfl⟩ := List.append_of_mem (hp.subset List.mem_cons_self)
    have hperm : rest.Perm (front ++ back) := (hp.trans List.perm_middle).cons_inv
    have hfront : ∀ m ∈ front, n ≤ m := fun m hm =>
      hn m (hperm.symm.subset (List.mem_append_left _ hm))
    have hle := ih hrest hperm
    have hlength := hperm.length_eq
    calc weighted (n :: rest) ≤ weighted (n :: (front ++ back)) := by
          simp only [weighted, hlength]
          omega
      _ ≤ weighted (front ++ n :: back) := weighted_front hfront back

/-- No order of the jobs has a smaller sum of delays than one by length. -/
theorem sum_delays_le {speed : Rat} (hpos : 0 < speed) (since : Job Exact → Rat) (time : Rat)
    {order other : List (Job Exact)} (hs : (order.map (·.length)).Pairwise (· ≤ ·))
    (hp : order.Perm other) :
    (delays speed since time order).sum ≤ (delays speed since time other).sum := by
  have hweight : (weighted (order.map (·.length)) : Rat) ≤ weighted (other.map (·.length)) := by
    exact_mod_cast weighted_le_of_perm hs (hp.map _)
  have hdiv := div_le_div_of_nonneg_right hweight hpos.le
  rw [sum_delays, sum_delays, hp.length_eq, (hp.map since).sum_eq]
  linarith

theorem map_finish_backToBack (unit : UnitId) (speed time : Rat) (order : List (Job Exact)) :
    (backToBack unit speed time order).map (·.1.finish) =
      (delays speed (fun _ => 0) time order).map .rational := by
  induction order generalizing time with
  | nil => rfl
  | cons job rest ih =>
    rw [backToBack, delays, List.map_cons, List.map_cons, ih, sub_zero]

theorem map_turnaround_backToBack (unit : UnitId) (speed time : Rat) {order : List (Job Exact)}
    (ha : ∀ job ∈ order, job.arrival = .rational job.arrival.value) :
    (backToBack unit speed time order).map (fun run => run.1.finish - run.2.arrival) =
      (delays speed (fun job => job.arrival.value) time order).map .rational := by
  induction order generalizing time with
  | nil => rfl
  | cons job rest ih =>
    obtain ⟨hjob, hrest⟩ := List.forall_mem_cons.mp ha
    rw [backToBack, delays, List.map_cons, List.map_cons, ih _ hrest, hjob]
    rfl

/-- A job that waits until its start has been in the system for longer by the time it takes. -/
theorem map_waiting_backToBack (unit : UnitId) (speed time : Rat) {order : List (Job Exact)}
    (ha : ∀ job ∈ order, job.arrival = .rational job.arrival.value) :
    (backToBack unit speed time order).map (fun run => run.1.start - run.2.arrival) =
      (delays speed (fun job => job.arrival.value + job.length / speed) time order).map
        .rational := by
  induction order generalizing time with
  | nil => rfl
  | cons job rest ih =>
    obtain ⟨hjob, hrest⟩ := List.forall_mem_cons.mp ha
    have hwait : time + job.length / speed - (job.arrival.value + job.length / speed) =
        time - job.arrival.value := by ring
    rw [backToBack, delays, List.map_cons, List.map_cons, ih _ hrest, hwait, hjob]
    rfl

section Averages

variable {unit : UnitId} {speed time : Rat} {jobs order : List (Job Exact)}
  {mark : Job Exact → Job Exact}

/-- Every completion is found to be of its job, whatever is noted about the jobs meanwhile. -/
theorem identify_backToBack (hd : (jobs.map (·.id)).Nodup) (hid : ∀ job, (mark job).id = job.id)
    (hsub : order ⊆ jobs) :
    ((backToBack unit speed time order).map (·.1)).mapM (Metrics.identify (jobs.map mark)) =
      .ok ((backToBack unit speed time order).map fun run => (run.1, mark run.2)) := by
  have hmarked : ((jobs.map mark).map (·.id)).Nodup := by
    rw [List.map_map]
    simpa only [Function.comp_def, hid] using hd
  refine mapM_eq_ok_iff.mpr (List.forall₂_map_left_iff.mpr (List.forall₂_map_right_iff.mpr
    (List.forall₂_same.mpr fun run hr => ?_)))
  have hmem : run.2 ∈ order := by
    rw [← map_snd_backToBack unit speed time order]
    exact List.mem_map_of_mem hr
  have hfind := findJob?_of_mem hmarked (List.mem_map_of_mem (f := mark) (hsub hmem))
  rw [Metrics.identify, job_eq_of_mem_backToBack hr, ← hid, hfind]

theorem Metrics.ofCompletions_backToBack (hd : (jobs.map (·.id)).Nodup)
    (hid : ∀ job, (mark job).id = job.id) (hsub : order ⊆ jobs) (hne : order ≠ []) :
    ofCompletions ((backToBack unit speed time order).map (·.1)) (jobs.map mark) =
      .ok (summarize (.ofCompletions ((backToBack unit speed time order).map (·.1)))
        ((backToBack unit speed time order).map fun run => (run.1, mark run.2))) := by
  have hruns : backToBack unit speed time order ≠ [] := fun hnil => by
    have hsnd := map_snd_backToBack unit speed time order
    rw [hnil] at hsnd
    exact hne hsnd.symm
  rw [ofCompletions, ofSchedule, Schedule.ofCompletions, if_neg (by simpa using hruns),
    identify_backToBack hd hid hsub]
  rfl

theorem Metrics.exists_backToBack (hd : (jobs.map (·.id)).Nodup)
    (hid : ∀ job, (mark job).id = job.id) (harrival : ∀ job, (mark job).arrival = job.arrival)
    (hsub : order ⊆ jobs) (ha : ∀ job ∈ order, job.arrival = .rational job.arrival.value)
    (hne : order ≠ []) :
    ∃ metrics, ofCompletions ((backToBack unit speed time order).map (·.1)) (jobs.map mark) =
        .ok metrics ∧
      metrics.avgTurnaround =
        .rational ((delays speed (fun job => job.arrival.value) time order).sum /
          order.length) ∧
      metrics.avgWaiting =
        .rational ((delays speed (fun job => job.arrival.value + job.length / speed) time
          order).sum / order.length) := by
  have hlength : (backToBack unit speed time order).length = order.length := by
    conv_rhs => rw [← map_snd_backToBack unit speed time order, List.length_map]
  refine ⟨_, ofCompletions_backToBack hd hid hsub hne, ?_, ?_⟩
  · simp only [summarize, List.map_map, List.length_map, Function.comp_def, ofCompletion,
      harrival, hlength]
    rw [map_turnaround_backToBack unit speed time ha, Exact.total_map_rational]
    rfl
  · simp only [summarize, List.map_map, List.length_map, Function.comp_def, ofCompletion,
      harrival, hlength]
    rw [map_waiting_backToBack unit speed time ha, Exact.total_map_rational]
    rfl

end Averages
end JobAllocation
