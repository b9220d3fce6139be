import JobAllocation.QuantumSweep
import JobAllocation.Proofs.BusyTimes
import JobAllocation.Proofs.RefusedCalls
import JobAllocation.Proofs.RoundRobinOverlap
import JobAllocation.Proofs.SingleUnit

/-!
# What a quantum trades

Two quanta cut the same jobs into traces of different length and order. Two figures of a trace do
not depend on how the slices of different jobs interleave. A job is preempted after each of its
portions but the last, and a longer quantum cuts it into no more of them. And a single unit that is
free only after every arrival never waits, so it is done when all the work is.
-/
namespace JobAllocation

/-- The number of times that the jobs go back to the queue: of the quanta that a job begins all but
the last one preempt it. -/
def preemptions {T : Type} (quantum : Nat) (jobs : List (Job T)) : Nat :=
  (jobs.map fun job => (job.length + quantum - 1) / quantum - 1).sum

/-- No more long quanta are begun than short ones. -/
theorem begun_le_begun {short long : Nat} (hs : 0 < short) (hle : short ≤ long) (n : Nat) :
    (n + long - 1) / long ≤ (n + short - 1) / short := by
  obtain ⟨begun, hbegun⟩ : ∃ begun, (n + short - 1) / short = begun := ⟨_, rfl⟩
  have hcovered : n ≤ short * begun := by
    have hlt := Nat.lt_mul_div_succ (n + short - 1) hs
    rw [hbegun, Nat.mul_succ] at hlt
    omega
  have hmore : n ≤ long * begun := hcovered.trans (Nat.mul_le_mul_right begun hle)
  rw [hbegun, ← Nat.lt_succ_iff, Nat.div_lt_iff_lt_mul (by omega), Nat.succ_mul, Nat.mul_comm]
  omega

theorem preemptions_antitone {T : Type} {short long : Nat} (hs : 0 < short) (hle : short ≤ long)
    (jobs : List (Job T)) : preemptions long jobs ≤ preemptions short jobs :=
  List.sum_le_sum fun job _ => Nat.sub_le_sub_right (begun_le_begun hs hle job.length) 1

/-- Every job begins one quantum more than it is preempted. -/
theorem preemptions_add_length {T : Type} {quantum : Nat} (hq : 0 < quantum) {jobs : List (Job T)}
    (hl : ∀ job ∈ jobs, 0 < job.length) :
    preemptions quantum jobs + jobs.length =
      (jobs.map fun job => (job.length + quantum - 1) / quantum).sum := by
  induction jobs with
  | nil => rfl
  | cons job jobs ih =>
    obtain ⟨hjob, hjobs⟩ := List.forall_mem_cons.mp hl
    have hpos : 0 < (job.length + quantum - 1) / quantum := Nat.div_pos (by omega) hq
    have hrest := ih hjobs
    unfold preemptions at hrest ⊢
    rw [List.map_cons, List.map_cons, List.sum_cons, List.sum_cons, List.length_cons]
    omega

namespace RoundRobin

variable {T : Type} {quantum : Nat} {hq : 0 < quantum} {jobs : List (Job T)}
  {schedule : Schedule T}

/-- Every slice but the last one of each job ends with a switch. -/
theorem Serving.contextSwitches_eq (h : Serving hq jobs [] schedule)
    (hl : ∀ job ∈ jobs, 0 < job.length) :
    schedule.contextSwitches = preemptions quantum jobs := by
  have hslices : schedule.slices.length =
      (jobs.map fun job => (job.length + quantum - 1) / quantum).sum := by
    have hlength := h.length
    simp only [Portion.length_all] at hlength
    rwa [List.map_nil, List.sum_nil, Nat.add_zero] at hlength
  have hcount : schedule.completions.length = jobs.length := by
    have hcompleted := h.completions_perm.length_eq
    rwa [List.length_map, List.length_map] at hcompleted
  have hlast := preemptions_add_length hq hl
  have hswitches := h.switches
  omega

/-- The slices hold all the work of all jobs. -/
theorem Serving.sum_work_slices (h : Serving hq jobs [] schedule)
    (hd : (jobs.map (·.id)).Nodup) :
    (schedule.slices.map (·.work)).sum = (jobs.map (·.length)).sum := by
  have hgroups := sum_map_sum_filter (fun slice : Slice T => slice.job) (·.work) hd h.known
  rw [List.map_map] at hgroups
  rw [← hgroups]
  exact congrArg List.sum (List.map_congr_left fun job hj => h.sum_work hj)

end RoundRobin

namespace ExecutionUnit

/-- From when a unit is free that does some work without waiting. -/
def doneWith (unit : ExecutionUnit Exact) (work : Nat) : Exact :=
  unit.ready + Quantity.ofNat work / unit.speed

@[simp] theorem doneWith_zero (unit : ExecutionUnit Exact) : unit.doneWith 0 = unit.ready := by
  unfold doneWith
  cases unit.ready with
  | never => rfl
  | rational ready =>
    cases unit.speed with
    | never => exact congrArg Exact.rational (add_zero ready)
    | rational speed =>
      exact congrArg Exact.rational (by rw [Nat.cast_zero, zero_div, add_zero])

/-- Work that is done piece by piece takes as long as in one piece. -/
theorem doneWith_add (unit : ExecutionUnit Exact) (done work : Nat) :
    unit.doneWith done + Quantity.ofNat work / unit.speed = unit.doneWith (done + work) := by
  unfold doneWith
  cases unit.ready with
  | never => rfl
  | rational ready =>
    cases unit.speed with
    | never => exact congrArg Exact.rational (add_zero (ready + 0))
    | rational speed =>
      exact congrArg Exact.rational (by rw [Nat.cast_add, add_div, add_assoc])

end ExecutionUnit

namespace RoundRobin

variable {pool : Pool Exact} {unit : ExecutionUnit Exact}

/-- The unit under a trace is free once the work of the trace is done. -/
theorem Placed.exists_unit_of_arrived {slices : List (Slice Exact)} (h : Placed pool slices)
    (hv : pool.Valid) (hone : pool.units = [unit])
    (harrived : ∀ job ∈ pool.jobs, job.arrival ≤ unit.ready) :
    ∃ last, unitsAfter pool.units slices = [last] ∧ last.speed = unit.speed ∧
      unit.ready ≤ last.ready ∧ last.ready = unit.doneWith (slices.map (·.work)).sum := by
  induction slices using List.reverseRecOn with
  | nil => exact ⟨unit, hone, rfl, (Exact.le_total _ _).elim id id, unit.doneWith_zero.symm⟩
  | append_singleton slices slice ih =>
    obtain ⟨hplaced, job, granted, hg⟩ := placed_concat.mp h
    obtain ⟨last, hlast, hspeed, hfree, hready⟩ := ih hplaced
    obtain rfl : granted = last := by
      have hmem := hg.unit_mem
      rwa [hlast, List.mem_singleton] at hmem
    have hle := hg.ready_le_start hv
    -- The job has arrived, so the unit starts it as soon as it is free.
    have hstart : slice.start = granted.ready := by
      have harrival := Quantity.le_trans (harrived job hg.job_mem) hfree
      rw [hg.start_eq, Quantity.larger_eq hle.1,
        if_neg fun hlt => Quantity.not_le_of_lt hlt harrival]
    have hfinish : slice.finish = unit.doneWith ((slices ++ [slice]).map (·.work)).sum := by
      rw [hg.finish_eq, hstart, hready, hspeed, unit.doneWith_add, List.map_append, List.sum_append,
        List.map_singleton, List.sum_singleton]
    have hspan := Quantity.le_trans hle.2 (hg.start_le_finish hv).2
    have hadvanced := ExecutionUnit.ready_advanceTo_of_le hspan
    refine ⟨granted.advanceTo slice.finish, ?_, (granted.advanceTo_speed _).trans hspeed, ?_,
      hadvanced.trans hfinish⟩
    · rw [unitsAfter_concat, hlast, hg.unit_eq, advanceUnit_single]
    · rw [hadvanced]
      exact Quantity.le_trans hfree hspan

/-- A schedule on one unit that never waits lasts until all the work is done. -/
theorem makespan_of_arrived {quantum : Nat} {hq : 0 < quantum} {after : Allocation Exact}
    (hs : Serving hq pool.jobs [] after.schedule)
    (hp : Placing pool [] after.pool.units after.schedule) (hv : pool.Valid)
    (hone : pool.units = [unit]) (harrived : ∀ job ∈ pool.jobs, job.arrival ≤ unit.ready)
    (hne : pool.jobs ≠ []) :
    after.schedule.makespan = unit.doneWith (pool.jobs.map (·.length)).sum := by
  have hsingle : pool.units.length = 1 := by rw [hone, List.length_singleton]
  obtain ⟨last, hlast, -, -, hready⟩ := hp.placed.exists_unit_of_arrived hv hone harrived
  have hmem : last ∈ unitsAfter pool.units after.schedule.slices := by
    rw [hlast]
    exact List.mem_cons_self
  have hran : ∀ slice ∈ after.schedule.slices, last.id = slice.unit := fun slice hm => by
    obtain ⟨front, job, granted, hg⟩ := hp.placed.of_mem hm
    rw [hg.unit_eq]
    exact id_eq_of_single hsingle hmem hg.unit_mem
  have hsequential := hp.placed.sequential_of_single hv hsingle
  have hsummarised := (summarised_iff hs hp hv).mpr (hsequential.endsLatest hp.placed hv)
  rw [← hs.sum_work_slices hv.jobs_distinct, ← hready]
  refine Exact.eq_of_same ⟨?_, ?_⟩
  · -- No slice ends after the unit is free.
    refine Quantity.le_trans hsummarised.makespan.1 (Quantity.largest_le
      ((working_unitsAfter hv.working _).ready_nonneg last hmem) fun x hx => ?_)
    obtain ⟨slice, hm, rfl⟩ := List.mem_map.mp hx
    exact hp.placed.finish_le_ready hv hm hmem (hran slice hm)
  · obtain ⟨job, hj⟩ := List.exists_mem_of_ne_nil _ hne
    have hjob := hs.completions_perm.symm.subset (List.mem_map_of_mem hj)
    obtain ⟨c, hc, -⟩ := List.mem_map.mp hjob
    obtain ⟨slice, hm, -⟩ := hs.exists_reported hc
    exact hsummarised.ready last (hp.units_eq ▸ hmem) ⟨slice, hm, (hran slice hm).symm⟩

end RoundRobin

namespace QuantumOutcome

variable {T : Type} [Quantity T] [LawfulQuantity T] {pool : Pool T} {quantum : Nat}

/-- The outcome of a quantum has the switches and the makespan of its schedule. -/
theorem exists_measure {after : Allocation T}
    (h : RoundRobin.allocate quantum pool = .ok after) (hne : pool.jobs ≠ []) :
    ∃ outcome, measure pool quantum = .ok outcome ∧ outcome.quantum = quantum ∧
      outcome.contextSwitches = after.schedule.contextSwitches ∧
      outcome.makespan = after.schedule.makespan := by
  have hcall : (Call.roundRobin quantum).allocate pool = .ok after := h
  have hv := Pool.valid_of_check (Call.check_and_feasible hcall).1
  obtain ⟨runs, -, -, hmetrics⟩ := (Call.finishes_of_allocate hcall).exists_summarize hv hne
  simp only [measure, h, hmetrics, bind, Except.bind, pure, Except.pure]
  exact ⟨_, rfl, rfl, rfl, rfl⟩

theorem exists_measure_switches (hq : 0 < quantum) (valid : pool.check = .ok ())
    (hne : pool.jobs ≠ []) :
    ∃ outcome, measure pool quantum = .ok outcome ∧ outcome.quantum = quantum ∧
      outcome.contextSwitches = preemptions quantum pool.jobs := by
  have hv := Pool.valid_of_check valid
  obtain ⟨after, hok, hs, -⟩ := RoundRobin.exists_placed hq valid
  obtain ⟨outcome, houtcome, hquantum, hswitches, -⟩ := exists_measure hok hne
  exact ⟨outcome, houtcome, hquantum,
    hswitches.trans (hs.contextSwitches_eq fun job hj => (hv.jobs_valid job hj).length_pos)⟩

theorem exists_measure_makespan {pool : Pool Exact} {unit : ExecutionUnit Exact}
    (hq : 0 < quantum) (valid : pool.check = .ok ()) (hne : pool.jobs ≠ [])
    (hone : pool.units = [unit]) (harrived : ∀ job ∈ pool.jobs, job.arrival ≤ unit.ready) :
    ∃ outcome, measure pool quantum = .ok outcome ∧ outcome.quantum = quantum ∧
      outcome.makespan = unit.doneWith (pool.jobs.map (·.length)).sum := by
  obtain ⟨after, hok, hs, hp⟩ := RoundRobin.exists_placed hq valid
  obtain ⟨outcome, houtcome, hquantum, -, hmakespan⟩ := exists_measure hok hne
  exact ⟨outcome, houtcome, hquantum, hmakespan.trans
    (RoundRobin.makespan_of_arrived hs hp (Pool.valid_of_check valid) hone harrived hne)⟩

omit [LawfulQuantity T] in
/-- A sweep succeeds with an outcome for each quantum if each quantum has one. -/
theorem exists_sweep {P : Nat → QuantumOutcome T → Prop} {quanta : List Nat}
    (h : ∀ quantum ∈ quanta, ∃ outcome, measure pool quantum = .ok outcome ∧ P quantum outcome) :
    ∃ outcomes, sweep quanta pool = .ok outcomes ∧ List.Forall₂ P quanta outcomes :=
  exists_mapM_ok h

end QuantumOutcome

/-- A quantum trades context switches only. A sweep reports for each quantum one switch less per job
than quanta are begun, so never fewer for a shorter quantum. In exact arithmetic every quantum has
the same makespan on a single unit that is free only after every arrival: that of all the work in
one piece. -/
theorem quantum_trades_switches :
    (∀ pool : Pool Binary64, pool.check = .ok () → pool.jobs ≠ [] →
      ∀ quanta : List Nat, (∀ quantum ∈ quanta, 0 < quantum) →
        ∃ outcomes, QuantumOutcome.sweep quanta pool = .ok outcomes ∧
          List.Forall₂ (fun quantum outcome => outcome.quantum = quantum ∧
            outcome.contextSwitches =
              (pool.jobs.map fun job => (job.length + quantum - 1) / quantum - 1).sum)
            quanta outcomes ∧
          ∀ a ∈ outcomes, ∀ b ∈ outcomes, a.quantum ≤ b.quantum →
            b.contextSwitches ≤ a.contextSwitches) ∧
      ∀ (pool : Pool Exact) (unit : ExecutionUnit Exact), pool.check = .ok () → pool.jobs ≠ [] →
        pool.units = [unit] → (∀ job ∈ pool.jobs, job.arrival ≤ unit.ready) →
          ∀ quanta : List Nat, (∀ quantum ∈ quanta, 0 < quantum) →
            ∃ outcomes, QuantumOutcome.sweep quanta pool = .ok outcomes ∧
              List.Forall₂ (fun quantum outcome => outcome.quantum = quantum ∧
                outcome.makespan = unit.ready +
                  Quantity.ofNat (pool.jobs.map (·.length)).sum / unit.speed) quanta outcomes := by
  constructor
  · intro pool valid nonempty quanta hquanta
    obtain ⟨outcomes, hok, hall⟩ := QuantumOutcome.exists_sweep fun quantum hm =>
      QuantumOutcome.exists_measure_switches (hquanta quantum hm) valid nonempty
    refine ⟨outcomes, hok, hall, fun a ha b hb hab => ?_⟩
    obtain ⟨_, hqa, rfl, hswitches⟩ := exists_of_mem_forall₂ hall ha
    obtain ⟨_, -, rfl, hfewer⟩ := exists_of_mem_forall₂ hall hb
    rw [hswitches, hfewer]
    exact preemptions_antitone (hquanta _ hqa) hab pool.jobs
  · intro pool unit valid nonempty hone harrived quanta hquanta
    exact QuantumOutcome.exists_sweep fun quantum hm =>
      QuantumOutcome.exists_measure_makespan (hquanta quantum hm) valid nonempty hone harrived

/-- Two jobs that are there before the only unit is free. -/
def lateUnit {T : Type} [Quantity T] : Pool T where
  jobs := [⟨0, "long", 250, 0, none, 250⟩, ⟨1, "short", 40, Quantity.ofNat 1, none, 40⟩]
  units := [⟨0, "only", Quantity.ofNat 100, Quantity.ofNat 1⟩]

theorem quantum_trades_switches_lateUnit :
    (lateUnit : Pool Binary64).check = .ok () ∧ (lateUnit : Pool Exact).check = .ok () ∧
      (∃ outcomes, QuantumOutcome.sweep [30, 100] (lateUnit : Pool Binary64) = .ok outcomes ∧
        outcomes.map (·.contextSwitches) = [9, 2]) ∧
      ∃ outcomes, QuantumOutcome.sweep [30, 100] (lateUnit : Pool Exact) = .ok outcomes ∧
        outcomes.map (·.makespan) = [.rational (39 / 10), .rational (39 / 10)] := by
  have hrounded : (lateUnit : Pool Binary64).check = .ok () :=
    lateUnit.check_eq_ok_iff.mpr (by decide +kernel)
  have hexact : (lateUnit : Pool Exact).check = .ok () :=
    lateUnit.check_eq_ok_iff.mpr (by decide +kernel)
  obtain ⟨hswitches, hmakespan⟩ := quantum_trades_switches
  obtain ⟨outcomes, hok, hall, -⟩ :=
    hswitches lateUnit hrounded (List.cons_ne_nil _ _) [30, 100] (by decide)
  obtain ⟨again, hagain, hsame⟩ := hmakespan lateUnit _ hexact (List.cons_ne_nil _ _) rfl
    (by decide +kernel) [30, 100] (by decide)
  refine ⟨hrounded, hexact, ⟨outcomes, hok, ?_⟩, again, hagain, ?_⟩
  · rw [← map_eq_map_of_forall₂ (hall.imp fun _ _ h => h.2.symm)]
    decide
  · rw [← map_eq_map_of_forall₂ (hsame.imp fun _ _ h => h.2.symm)]
    decide +kernel

end JobAllocation
