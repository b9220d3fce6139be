import JobAllocation.Proofs.FinishSums
import JobAllocation.Proofs.SearchOrder

/-!
# What the search promises is what is carried out

If all jobs have arrived and all units are free from zero on, a unit is done with its jobs at the
sum of the times that they take. The search sums these times in ascending order of jobs, and an
execution in the order of the entries, so the two can differ in the last digits unless the entries
list the jobs of each unit in ascending order.
-/
namespace JobAllocation

namespace Assignment

variable {a : Assignment}

/-- The jobs that an assignment binds to a unit, in order of execution. -/
def jobsOf (a : Assignment) (unit : UnitId) : List JobId :=
  (a.entries.filter (·.2 == unit)).map (·.1)

theorem mem_jobsOf_iff {unit : UnitId} {id : JobId} :
    id ∈ a.jobsOf unit ↔ (id, unit) ∈ a.entries := by
  simp only [jobsOf, List.mem_map, List.mem_filter, beq_iff_eq]
  constructor
  · rintro ⟨⟨id, unit⟩, ⟨hentry, rfl⟩, rfl⟩
    exact hentry
  · exact fun hentry => ⟨(id, unit), ⟨hentry, rfl⟩, rfl⟩

theorem nodup_jobsOf (hn : a.jobs.Nodup) (unit : UnitId) : (a.jobsOf unit).Nodup :=
  hn.sublist (List.filter_sublist.map _)

theorem jobsOf_eq (hn : a.jobs.Nodup) (unit : UnitId) :
    a.jobsOf unit = a.jobs.filter fun job => a.unitOf? job = some unit := by
  rw [jobsOf, jobs, List.filter_map]
  congr 1
  refine List.filter_congr fun entry he => ?_
  simp [unitOf?_of_mem hn he, beq_eq_decide]

/-- Lists the jobs in such an order that those of each unit of `final` are ascending. -/
def ListsInOrder (initial final : Assignment) : Prop :=
  ∀ unit, (initial.jobs.filter fun job => final.unitOf? job = some unit).Pairwise (· < ·)

/-- Jobs in ascending order are so on each unit, whatever the units. -/
theorem ListsInOrder.of_sorted (h : a.jobs.Pairwise (· < ·)) (final : Assignment) :
    a.ListsInOrder final := fun _ => h.filter _

end Assignment

variable {T : Type} [Quantity T]

/-- The jobs that some of the units have run are those that were bound to them. -/
theorem Execution.map_job_filter {a : Assignment} {jobs : List (Job T)}
    {units : List (ExecutionUnit T)} {plan : List (Completion T)}
    (h : execute a jobs units = .ok plan) (among : UnitId → Bool) :
    (plan.filter fun c => among c.unit).map (·.job) =
      (a.entries.filter fun entry => among entry.2).map (·.1) := by
  rw [← map_entry_of_execute h, List.filter_map, List.map_map]
  rfl

theorem Execution.jobsRun_eq {a : Assignment} {jobs : List (Job T)} {units : List (ExecutionUnit T)}
    {plan : List (Completion T)} (h : execute a jobs units = .ok plan) (unit : UnitId) :
    jobsRun plan unit = a.jobsOf unit := map_job_filter h (· == unit)

namespace LocalSearch.Problem

variable {jobs : List (Job T)} {units : List (ExecutionUnit T)} {p : Problem T}
  {x : p.Placement} {a : Assignment}

/-- The search places on a unit the jobs that the assignment binds to it. -/
theorem jobsOn_perm (hp : Poses jobs units p) (ha : a.Complete p.jobs p.units)
    (hx : p.Describes x a) (u : p.Position) :
    ((p.jobsOn x u).map (·.id)).Perm (a.jobsOf (p.unitId u)) := by
  have hn : a.jobs.Nodup := ha.jobs_perm.nodup_iff.mpr hp.jobs_distinct
  have hplaced := List.forall₂_iff_zip.mp (describes_iff_forall₂.mp hx)
  have hleft : ((p.jobsOn x u).map (·.id)).Nodup :=
    hp.jobs_distinct.sublist ((jobsOn_sublist hx.length_eq u).map _)
  refine (List.perm_ext_iff_of_nodup hleft (Assignment.nodup_jobsOf hn _)).mpr fun id => ?_
  rw [Assignment.mem_jobsOf_iff]
  simp only [jobsOn, List.mem_map, List.mem_filter, beq_iff_eq]
  constructor
  · rintro ⟨job, ⟨⟨_, v⟩, ⟨hzip, rfl⟩, rfl⟩, rfl⟩
    exact Assignment.mem_of_unitOf? (hplaced.2 hzip)
  · intro hentry
    obtain ⟨job, hj, rfl⟩ := List.mem_map.mp (ha.jobs_perm.subset (List.mem_map_of_mem hentry))
    obtain ⟨i, hi⟩ := List.getElem?_of_mem hj
    obtain ⟨v, hv⟩ : ∃ v, x[i]? = some v := by
      have hlt : i < x.length := hx.length_eq ▸ (List.getElem?_eq_some_iff.mp hi).1
      exact ⟨_, List.getElem?_eq_getElem hlt⟩
    have hbound := hx.bound i job v hi hv
    rw [Assignment.unitOf?_of_mem hn hentry] at hbound
    obtain rfl := hp.unitId_injective (Option.some.inj hbound)
    have hzip : (job, u) ∈ p.jobs.zip x :=
      List.mem_of_getElem? (List.getElem?_zip_eq_some.mpr ⟨hi, hv⟩)
    exact ⟨job, ⟨(job, u), ⟨hzip, rfl⟩, rfl⟩, rfl⟩

/-- It takes them in ascending order of their numbers. -/
theorem map_id_jobsOn (hp : Poses jobs units p) (ha : a.Complete p.jobs p.units)
    (hx : p.Describes x a) (u : p.Position) :
    (p.jobsOn x u).map (·.id) = (a.jobsOf (p.unitId u)).mergeSort (· ≤ ·) := by
  have hsorted : ((p.jobsOn x u).map (·.id)).Pairwise (· ≤ ·) := by
    refine List.Pairwise.sublist ((jobsOn_sublist hx.length_eq u).map _) ?_
    rw [hp.jobs_eq, List.pairwise_map]
    exact pairwise_mergeSort_number Job.id jobs
  have hperm := (jobsOn_perm hp ha hx u).trans (List.mergeSort_perm _ (· ≤ ·)).symm
  exact hperm.eq_of_pairwise (fun _ _ _ _ => Nat.le_antisymm) hsorted
    (pairwise_mergeSort_number id _)

theorem load_eq (hp : Poses jobs units p) (ha : a.Complete p.jobs p.units)
    (hx : p.Describes x a) (u : p.Position) :
    p.load x u =
      doneAt jobs (p.units.get u) 0 ((a.jobsOf (p.unitId u)).mergeSort (· ≤ ·)) := by
  have hd : (jobs.map (·.id)).Nodup := (hp.jobs_perm.map _).nodup_iff.mp hp.jobs_distinct
  rw [load, Quantity.total, doneAt, ← map_id_jobsOn hp ha hx, List.map_map]
  congr 1
  refine List.map_congr_left fun job hj => ?_
  have hmem := hp.jobs_perm.subset ((jobsOn_sublist hx.length_eq u).subset hj)
  exact (timeTaken_of_mem hd hmem _).symm

end LocalSearch.Problem

/-- All jobs arrive and all units are free at zero, of either sign. -/
structure Pool.AllAtZero (pool : Pool T) : Prop where
  arrivals : ∀ job ∈ pool.jobs, Quantity.Same job.arrival 0
  readies : ∀ unit ∈ pool.units, Quantity.Same unit.ready 0

/-- On each unit the times of its jobs have one sum in the order of the entries and in ascending
order of the jobs. -/
def Assignment.SumsAgree (a : Assignment) (pool : Pool T) : Prop :=
  ∀ unit ∈ pool.units, doneAt pool.jobs unit 0 (a.jobsOf unit.id) =
    doneAt pool.jobs unit 0 ((a.jobsOf unit.id).mergeSort (· ≤ ·))

theorem Assignment.ListsInOrder.sumsAgree {initial final : Assignment}
    (h : initial.ListsInOrder final) (hjobs : final.jobs = initial.jobs) (hn : initial.jobs.Nodup)
    (pool : Pool T) : final.SumsAgree pool := by
  intro unit _
  have hsorted := h unit.id
  rw [← hjobs, ← jobsOf_eq (hjobs ▸ hn)] at hsorted
  rw [List.mergeSort_of_pairwise (hsorted.imp fun hlt => decide_eq_true (Nat.le_of_lt hlt))]

/-- Where nothing is rounded the order of terms does not matter. -/
theorem Assignment.sumsAgree_exact (a : Assignment) (pool : Pool Exact) : a.SumsAgree pool := by
  intro unit _
  have hperm := List.mergeSort_perm (a.jobsOf unit.id) (· ≤ ·)
  exact ((hperm.map (timeTaken pool.jobs unit)).foldl_eq 0).symm

section Realized

variable [LawfulQuantity T] {pool : Pool T} {a : Assignment} {plan : List (Completion T)}

namespace LocalSearch

/-- The end of a unit in a plan agrees with its load in the placement that the plan carries out. -/
theorem same_doneAt {p : Problem T} {x : p.Placement} (hv : pool.Valid) (hz : pool.AllAtZero)
    (hp : Poses pool.jobs pool.units p) (ha : a.Complete p.jobs p.units) (hx : p.Describes x a)
    (hsums : a.SumsAgree pool) (hrun : Execution.execute a pool.jobs pool.units = .ok plan)
    (u : p.Position) :
    Quantity.Same
      (doneAt pool.jobs (p.units.get u) (p.units.get u).ready (jobsRun plan (p.unitId u)))
      (p.load x u) := by
  have hu : p.units.get u ∈ pool.units := hp.units_perm.subset (List.get_mem _ _)
  rw [Execution.jobsRun_eq hrun, Problem.load_eq hp ha hx, Problem.unitId, ← hsums _ hu]
  exact Quantity.Same.foldl_add (hv.working.ready_nonneg _ hu) LawfulQuantity.zero_le_zero
    (timeTaken_nonneg hv.working hu _) (hz.readies _ hu)

theorem same_makespan {p : Problem T} {x : p.Placement} (hv : pool.Valid) (hz : pool.AllAtZero)
    (hp : Poses pool.jobs pool.units p) (ha : a.Complete p.jobs p.units) (hx : p.Describes x a)
    (hsums : a.SumsAgree pool) (hrun : Execution.execute a pool.jobs pool.units = .ok plan)
    (hprompt : Prompt pool.jobs pool.units plan) :
    Quantity.Same (Schedule.ofCompletions plan).makespan (p.makespan x) := by
  have hdone := same_doneAt hv hz hp ha hx hsums hrun
  have hcompletions := hprompt.exists_unit hv.working fun job hj => (hz.arrivals job hj).2
  have hends {unit : ExecutionUnit T} (hu : unit ∈ pool.units) :=
    hprompt.doneAt_spec hv.working hv.jobs_distinct (fun job hj => (hz.arrivals job hj).1) hu
  constructor
  · refine Quantity.largest_le (Quantity.nonneg_largest _) (List.forall_mem_map.mpr fun c hc => ?_)
    obtain ⟨-, unit, hu, hid⟩ := hcompletions c hc
    obtain ⟨u, rfl⟩ := List.mem_iff_get.mp (hp.units_perm.symm.subset hu)
    have hload := Quantity.le_largest (Problem.nonneg_loads (hp.timed hv) hx.length_eq)
      (List.mem_map_of_mem (List.mem_finRange u))
    exact Quantity.le_trans ((hends hu).1 c hc hid)
      (Quantity.le_trans (hdone u).1 hload)
  · refine Quantity.largest_le (Quantity.nonneg_largest _) (List.forall_mem_map.mpr fun u _ => ?_)
    have hu : p.units.get u ∈ pool.units := hp.units_perm.subset (List.get_mem _ _)
    refine Quantity.le_trans (hdone u).2 ?_
    rcases (hends hu).2 with hle | ⟨c, hc, hle⟩
    · exact Quantity.le_trans hle
        (Quantity.le_trans (hz.readies _ hu).1 (Quantity.nonneg_largest _))
    · have hfinish := List.forall_mem_map.mpr fun c hc => (hcompletions c hc).1
      exact Quantity.le_trans hle (Quantity.le_largest hfinish (List.mem_map_of_mem hc))

/-- The makespan of an execution is the one that the search finds for the assignment. -/
theorem makespan_execute [OrderedQuantity T] (hv : pool.Valid) (hz : pool.AllAtZero)
    (ha : a.Complete pool.jobs pool.units) (hsums : a.SumsAgree pool)
    (hrun : Execution.execute a pool.jobs pool.units = .ok plan) :
    makespan a pool.jobs pool.units = .ok (Schedule.ofCompletions plan).makespan := by
  obtain ⟨p, hp⟩ := exists_poses hv.jobs_distinct hv.units_distinct hv.speed_pos
  have hplaced := hp.complete ha
  obtain ⟨x, hx⟩ := Problem.exists_describes hplaced
  obtain ⟨again, hagain, hprompt, -⟩ := Execution.exists_prompt_execute hv ha
  obtain rfl := Except.ok.inj (hrun.symm.trans hagain)
  have hsame := same_makespan hv hz hp hplaced hx hsums hrun hprompt
  have hcompletions := hprompt.exists_unit hv.working fun job hj => (hz.arrivals job hj).2
  rw [Problem.makespan_eq hp hplaced hx]
  exact congrArg Except.ok (Quantity.largest_eq_of_same
    (List.forall_mem_map.mpr fun c hc => (hcompletions c hc).1)
    (Problem.nonneg_loads (hp.timed hv) hx.length_eq) hsame).symm

theorem nonneg_makespan {jobs : List (Job T)} {units : List (ExecutionUnit T)} {value : T}
    (h : makespan a jobs units = .ok value) : 0 ≤ value := by
  obtain ⟨p, -, h⟩ := exists_of_bind_eq_ok h
  obtain ⟨x, -, h⟩ := exists_of_bind_eq_ok h
  cases h
  exact Quantity.nonneg_largest _

/-- A search never ends above the makespan at which it began. -/
theorem Replay.final_le {jobs : List (Job T)} {units : List (ExecutionUnit T)}
    {a last : Assignment} {current final : T} {moves : List (Move T)}
    (h : Replay jobs units a current moves last final) (hc : 0 ≤ current) : final ≤ current := by
  induction h with
  | nil => exact Quantity.le_refl hc
  | cons _ _ value lower _ ih =>
    exact Quantity.le_trans (ih (nonneg_makespan value)) (Quantity.le_of_lt lower)

end LocalSearch

namespace HillClimbing

variable (policy : HillClimbing)

omit [LawfulQuantity T] in
/-- What a run of the policy goes through, and what is executed if the search is left out. -/
structure Stages (pool : Pool T) (initial : Assignment) (climb : LocalSearch.Climb T)
    (run : Allocation T) (unimproved : List (Completion T)) : Prop where
  build_eq : policy.initial.build pool.jobs pool.units = .ok initial
  search_eq : policy.search pool = .ok climb
  allocate_eq : policy.allocate pool = .ok run
  unimproved_eq : Execution.execute initial pool.jobs pool.units = .ok unimproved

/-- The policy carries out the assignment that the search ends at. -/
theorem exists_stages (h : pool.check = .ok ())
    (hc : policy.initial.Covers pool.jobs pool.units) :
    ∃ initial climb run unimproved, policy.Stages pool initial climb run unimproved ∧
      climb.Truthful policy.maxRounds initial pool.jobs pool.units ∧
      initial.Complete pool.jobs pool.units ∧ climb.assignment.Complete pool.jobs pool.units ∧
      ∃ plan, Execution.execute climb.assignment pool.jobs pool.units = .ok plan ∧
        run.schedule = .ofCompletions plan := by
  have hv := Pool.valid_of_check h
  obtain ⟨initial, climb, hbuild, hinitial, hsearch, htruthful, hfinal⟩ :=
    exists_truthful_search h hc
  obtain ⟨unimproved, hunimproved, -, -⟩ := Execution.exists_prompt_execute hv hinitial
  obtain ⟨plan, hplan, -, -⟩ := Execution.exists_prompt_execute hv hfinal
  obtain ⟨run, hrun, -⟩ := exists_commits_allocate h hc
  refine ⟨initial, climb, run, unimproved, ⟨hbuild, hsearch, hrun, hunimproved⟩, htruthful,
    hinitial, hfinal, plan, hplan, ?_⟩
  simp only [allocate, hsearch, hplan, bind, Except.bind, pure, Except.pure] at hrun
  cases hrun
  rfl

theorem exists_realized [OrderedQuantity T] (h : pool.check = .ok ()) (hz : pool.AllAtZero)
    (hc : policy.initial.Covers pool.jobs pool.units) :
    ∃ initial climb run unimproved, policy.Stages pool initial climb run unimproved ∧
      initial.jobs.Nodup ∧ climb.assignment.jobs = initial.jobs ∧
      climb.makespan ≤ climb.initialMakespan ∧
      (climb.assignment.SumsAgree pool → run.schedule.makespan = climb.makespan) ∧
      (initial.SumsAgree pool →
        (Schedule.ofCompletions unimproved).makespan = climb.initialMakespan) := by
  have hv := Pool.valid_of_check h
  obtain ⟨initial, climb, run, unimproved, hstages, htruthful, hinitial, hfinal, plan, hplan,
    hschedule⟩ := exists_stages policy h hc
  have hn : initial.jobs.Nodup := hinitial.jobs_perm.nodup_iff.mpr hv.jobs_distinct
  refine ⟨initial, climb, run, unimproved, hstages, hn, htruthful.jobs_eq, ?_, fun hsums => ?_,
    fun hsums => ?_⟩
  · exact htruthful.replay.final_le (LocalSearch.nonneg_makespan htruthful.initial_value)
  · rw [hschedule]
    have hmakespan := LocalSearch.makespan_execute hv hz hfinal hsums hplan
    exact Except.ok.inj (hmakespan.symm.trans htruthful.final_value)
  · have hmakespan := LocalSearch.makespan_execute hv hz hinitial hsums hstages.unimproved_eq
    exact Except.ok.inj (hmakespan.symm.trans htruthful.initial_value)

end HillClimbing

end Realized

/-- The makespan that the policy brings about is the one that its search promises, without rounding
always and with it if the entries list the jobs of each unit in ascending order. It is then no more
than the search finds for the start. It is no more than the start would bring about either if the
entries list the jobs of each unit of the start in ascending order too. -/
theorem allocate_realizes_search (policy : HillClimbing) :
    (∀ pool : Pool Exact, pool.check = .ok () → pool.AllAtZero →
      policy.initial.Covers pool.jobs pool.units →
      ∃ initial climb run unimproved, policy.Stages pool initial climb run unimproved ∧
        run.schedule.makespan = climb.makespan ∧
        run.schedule.makespan ≤ climb.initialMakespan ∧
        run.schedule.makespan ≤ (Schedule.ofCompletions unimproved).makespan) ∧
    ∀ pool : Pool Binary64, pool.check = .ok () → pool.AllAtZero →
      policy.initial.Covers pool.jobs pool.units →
      ∃ initial climb run unimproved, policy.Stages pool initial climb run unimproved ∧
        (initial.ListsInOrder climb.assignment →
          run.schedule.makespan = climb.makespan ∧
          run.schedule.makespan ≤ climb.initialMakespan ∧
          (initial.ListsInOrder initial →
            run.schedule.makespan ≤ (Schedule.ofCompletions unimproved).makespan)) ∧
        ((pool.jobs.map (·.id)).Pairwise (· < ·) →
          (∀ given, policy.initial ≠ .explicit given) →
          initial.ListsInOrder climb.assignment ∧ initial.ListsInOrder initial) := by
  constructor
  · intro pool valid zero covers
    obtain ⟨initial, climb, run, unimproved, hstages, -, -, hle, hfinal, hinitial⟩ :=
      policy.exists_realized valid zero covers
    have hmakespan := hfinal (climb.assignment.sumsAgree_exact pool)
    rw [← hmakespan] at hle
    refine ⟨initial, climb, run, unimproved, hstages, hmakespan, hle, ?_⟩
    rw [hinitial (initial.sumsAgree_exact pool)]
    exact hle
  · intro pool valid zero covers
    obtain ⟨initial, climb, run, unimproved, hstages, hn, hjobs, hle, hfinal, hinitial⟩ :=
      policy.exists_realized valid zero covers
    refine ⟨initial, climb, run, unimproved, hstages, fun horder => ?_, fun hsorted hgiven => ?_⟩
    · have hmakespan := hfinal (horder.sumsAgree hjobs hn pool)
      rw [hmakespan]
      refine ⟨rfl, hle, fun hstart => ?_⟩
      rw [hinitial (hstart.sumsAgree rfl hn pool)]
      exact hle
    · have hv := Pool.valid_of_check valid
      have hlisted := InitialAssignment.jobs_of_build hstages.build_eq hgiven hv.jobs_distinct
        hv.units_ne_nil hv.speed_pos
      rw [← hlisted] at hsorted
      exact ⟨.of_sorted hsorted _, .of_sorted hsorted _⟩

/-- Two jobs that take thirds and sevenths. -/
def lopsidedExact : Pool Exact where
  jobs := [⟨0, "long", 300, 0, none, 300⟩, ⟨1, "short", 200, 0, none, 200⟩]
  units := [⟨0, "slow", Quantity.ofNat 30, 0⟩, ⟨1, "fast", Quantity.ofNat 70, 0⟩]

theorem allocate_realizes_search_lopsided :
    (lopsidedExact.check = .ok () ∧ lopsidedExact.AllAtZero ∧
      ∃ climb run, HillClimbing.search ⟨.random 0, none⟩ lopsidedExact = .ok climb ∧
        HillClimbing.allocate ⟨.random 0, none⟩ lopsidedExact = .ok run ∧
        run.schedule.makespan = climb.makespan) ∧
    LocalSearch.lopsided.check = .ok () ∧ LocalSearch.lopsided.AllAtZero ∧
      (LocalSearch.lopsided.jobs.map (·.id)).Pairwise (· < ·) ∧
      ∃ climb run, HillClimbing.search ⟨.random 0, none⟩ LocalSearch.lopsided = .ok climb ∧
        HillClimbing.allocate ⟨.random 0, none⟩ LocalSearch.lopsided = .ok run ∧
        run.schedule.makespan = climb.makespan := by
  have hcheck : lopsidedExact.check = .ok () :=
    lopsidedExact.check_eq_ok_iff.mpr (by decide +kernel)
  have hzero : lopsidedExact.AllAtZero := ⟨by decide +kernel, by decide +kernel⟩
  have hcheckRounded : LocalSearch.lopsided.check = .ok () :=
    LocalSearch.lopsided.check_eq_ok_iff.mpr (by decide +kernel)
  have hzeroRounded : LocalSearch.lopsided.AllAtZero := ⟨by decide +kernel, by decide +kernel⟩
  have hsorted : (LocalSearch.lopsided.jobs.map (·.id)).Pairwise (· < ·) := by decide
  obtain ⟨hexact, hrounded⟩ := allocate_realizes_search ⟨.random 0, none⟩
  obtain ⟨_, climb, run, _, hstages, hmakespan, -⟩ :=
    hexact lopsidedExact hcheck hzero trivial
  obtain ⟨_, other, again, _, hothers, horder, hascending⟩ :=
    hrounded LocalSearch.lopsided hcheckRounded hzeroRounded trivial
  refine ⟨⟨hcheck, hzero, climb, run, hstages.search_eq, hstages.allocate_eq, hmakespan⟩,
    hcheckRounded, hzeroRounded, hsorted, other, again, hothers.search_eq, hothers.allocate_eq, ?_⟩
  exact (horder (hascending hsorted nofun).1).1

/-- The jobs take 0.2, 0.09 and 0.16 on the fast unit, and the one of 9 takes 0.45 on the other. -/
def lastSum : Pool Binary64 where
  jobs := [⟨0, "long", 20, 0, none, 20⟩, ⟨1, "short", 9, 0, none, 9⟩,
    ⟨2, "middle", 16, 0, none, 16⟩]
  units := [⟨0, "fast", Quantity.ofNat 100, 0⟩, ⟨1, "slow", Quantity.ofNat 20, 0⟩]

/-- The short job begins behind the others. -/
def shortLast : Assignment := ⟨[(0, 0), (2, 0), (1, 0)]⟩

namespace LastSum

open LocalSearch

def problem : Problem Binary64 := ⟨lastSum.jobs, lastSum.units⟩

def before : List (Fin 2) := [⟨0, Nat.two_pos⟩, ⟨0, Nat.two_pos⟩, ⟨0, Nat.two_pos⟩]

def after : List (Fin 2) := [⟨0, Nat.two_pos⟩, ⟨1, Nat.one_lt_two⟩, ⟨0, Nat.two_pos⟩]

def shortMoved : Assignment := ⟨[(0, 0), (2, 0), (1, 1)]⟩

theorem poses : Poses lastSum.jobs lastSum.units problem :=
  poses_of_sorted (by decide) (by decide) (by decide +kernel)

theorem complete : shortLast.Complete problem.jobs problem.units :=
  ⟨.cons 0 (.swap 1 2 []), by decide⟩

theorem describes : problem.Describes before shortLast :=
  Problem.describes_iff_forall₂.mpr (.cons rfl (.cons rfl (.cons rfl .nil)))

/-- In ascending order of jobs the three make a little more than 0.45, so the short one is moved. -/
theorem exists_step : ∃ move, problem.step? before = some (move, after) := by
  have hnext : (problem.step? before).map (fun step => (step.2 : List (Fin 2))) = some after := by
    decide +kernel
  obtain ⟨⟨move, _⟩, hstep, rfl⟩ := Option.map_eq_some_iff.mp hnext
  exact ⟨move, hstep⟩

theorem step?_eq_none : problem.step? after = none := by
  rw [← Option.isNone_iff_eq_none]
  decide +kernel

/-- In the order of the entries they make a little less than 0.45. -/
theorem finishes_earlier {plan unimproved : List (Completion Binary64)}
    (hplan : Execution.execute shortMoved lastSum.jobs lastSum.units = .ok plan)
    (hstart : Execution.execute shortLast lastSum.jobs lastSum.units = .ok unimproved) :
    (Schedule.ofCompletions unimproved).makespan < (Schedule.ofCompletions plan).makespan := by
  have hlower : ((Execution.execute shortMoved lastSum.jobs lastSum.units).bind fun plan =>
      (Execution.execute shortLast lastSum.jobs lastSum.units).map fun unimproved => decide
        ((Schedule.ofCompletions unimproved).makespan < (Schedule.ofCompletions plan).makespan)) =
      .ok true := by decide +kernel
  rw [hplan, hstart] at hlower
  exact of_decide_eq_true (Except.ok.inj hlower)

theorem rebind_after : problem.rebind shortLast after = shortMoved := by decide

theorem assignment_eq {climb : Climb Binary64}
    (h : optimize none shortLast lastSum.jobs lastSum.units = .ok climb) :
    climb.assignment = shortMoved := by
  obtain ⟨move, hstep⟩ := exists_step
  rw [optimize_eq poses complete describes none,
    Problem.descend_of_some (by decide) hstep,
    Problem.descend_of_none (by decide) step?_eq_none] at h
  obtain rfl := Except.ok.inj h
  exact rebind_after

theorem listsInOrder : shortLast.ListsInOrder shortMoved
  | 0 => by decide
  | 1 => by decide
  | _ + 2 => .nil

end LastSum

/-- The search moves the short job, since it sums up the start to more than 0.45. Carried out the
start makes less than 0.45, which is what the improved assignment makes. -/
theorem start_lt_allocate_lastSum :
    lastSum.check = .ok () ∧ lastSum.AllAtZero ∧
      InitialAssignment.Covers (.explicit shortLast) lastSum.jobs lastSum.units ∧
      ∃ climb run unimproved,
        HillClimbing.Stages ⟨.explicit shortLast, none⟩ lastSum shortLast climb run unimproved ∧
        shortLast.ListsInOrder climb.assignment ∧
        ¬ run.schedule.makespan ≤ (Schedule.ofCompletions unimproved).makespan := by
  have hcheck : lastSum.check = .ok () := lastSum.check_eq_ok_iff.mpr (by decide +kernel)
  have hzero : lastSum.AllAtZero := ⟨by decide +kernel, by decide +kernel⟩
  have hcovers : InitialAssignment.Covers (.explicit shortLast) lastSum.jobs lastSum.units :=
    LastSum.complete
  obtain ⟨initial, climb, run, unimproved, hstages, -, -, -, plan, hplan, hschedule⟩ :=
    HillClimbing.exists_stages ⟨.explicit shortLast, none⟩ hcheck hcovers
  obtain rfl : shortLast = initial := Except.ok.inj hstages.build_eq
  have hsearch := HillClimbing.search_of_build hcheck hstages.build_eq
  have hmoved := LastSum.assignment_eq (hsearch.symm.trans hstages.search_eq)
  refine ⟨hcheck, hzero, hcovers, climb, run, unimproved, hstages, ?_, ?_⟩
  · rw [hmoved]
    exact LastSum.listsInOrder
  · rw [hmoved] at hplan
    rw [hschedule]
    exact Quantity.not_le_of_lt (LastSum.finishes_earlier hplan hstages.unimproved_eq)

end JobAllocation
