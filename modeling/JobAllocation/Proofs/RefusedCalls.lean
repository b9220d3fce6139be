import JobAllocation.Proofs.Binary64Times
import JobAllocation.Proofs.InPlaceRuns
import JobAllocation.Report

/-!
# When an allocation is refused

Every call can fail in many places: an estimate, an entry of an assignment, a completion whose job
is not found. Once the input has passed the check, none of them is reached except where the call
itself asks for what it cannot have: turns of no work, or a search that begins at an assignment of
other jobs or to other units. Such a call is refused before anything is written.
-/
namespace JobAllocation

variable {T : Type}

namespace LocalSearch.Problem

variable {p : Problem T} {a : Assignment}

theorem known_of_checkEntries {seen : List JobId} {entries : List (JobId × UnitId)}
    (h : p.checkEntries seen entries = .ok ()) :
    (entries.map (·.1)).Nodup ∧
      ∀ job ∈ entries.map (·.1), job ∈ p.jobs.map (·.id) ∧ job ∉ seen := by
  induction entries generalizing seen with
  | nil => simp
  | cons entry rest ih =>
    rw [checkEntries] at h
    split at h
    · cases h
    · next hknown =>
      split at h
      · cases h
      · next hnew =>
        obtain ⟨job, hj, hid⟩ := List.any_eq_true.mp (not_not.mp hknown)
        obtain ⟨hn, hrest⟩ := ih h
        rw [List.map_cons, List.nodup_cons]
        refine ⟨⟨fun hm => (hrest _ hm).2 List.mem_cons_self, hn⟩, ?_⟩
        refine List.forall_mem_cons.mpr ⟨⟨?_, hnew⟩, fun other hm => ⟨(hrest other hm).1, ?_⟩⟩
        · exact List.mem_map.mpr ⟨job, hj, eq_of_beq hid⟩
        · exact fun hseen => (hrest other hm).2 (List.mem_cons_of_mem _ hseen)

theorem mem_of_locate {job : Job T} {u : p.Position} (h : p.locate a job = .ok u) :
    ∃ id, a.unitOf? job.id = some id ∧ id ∈ p.units.map (·.id) := by
  rw [locate] at h
  split at h
  · cases h
  · next id hid =>
    split at h
    · cases h
    · next v hv =>
      rw [position?, List.findRev?_eq_find?_reverse] at hv
      have hunit : p.unitId v = id := by simpa using List.find?_some hv
      exact ⟨id, hid, hunit ▸ Poses.unitId_mem v⟩

/-- Only a complete assignment has a placement. -/
theorem complete_of_placementOf (hd : (p.jobs.map (·.id)).Nodup) {x : p.Placement}
    (h : p.placementOf a = .ok x) : a.Complete p.jobs p.units := by
  rw [placementOf] at h
  cases hcheck : p.checkEntries [] a.entries with
  | error e =>
    rw [hcheck] at h
    cases h
  | ok =>
    rw [hcheck] at h
    obtain ⟨hn, hknown⟩ := known_of_checkEntries hcheck
    have hlocated : ∀ job ∈ p.jobs, ∃ u, p.locate a job = .ok u :=
      fun job hj => exists_of_mapM_eq_ok h hj
    refine ⟨(List.perm_ext_iff_of_nodup hn hd).mpr fun id => ⟨fun hm => (hknown id hm).1, ?_⟩, ?_⟩
    · intro hm
      obtain ⟨job, hj, rfl⟩ := List.mem_map.mp hm
      obtain ⟨u, hu⟩ := hlocated job hj
      obtain ⟨unit, hunit, -⟩ := mem_of_locate hu
      exact List.mem_map_of_mem (Assignment.mem_of_unitOf? hunit)
    · intro entry he
      obtain ⟨job, hj, hid⟩ := List.mem_map.mp (hknown _ (List.mem_map_of_mem he)).1
      obtain ⟨u, hu⟩ := hlocated job hj
      obtain ⟨unit, hunit, hmem⟩ := mem_of_locate hu
      rw [hid, Assignment.unitOf?_of_mem hn he] at hunit
      exact Option.some.inj hunit ▸ hmem

end LocalSearch.Problem

variable [Quantity T]

theorem LocalSearch.Poses.complete_of_optimize {jobs : List (Job T)}
    {units : List (ExecutionUnit T)} {p : Problem T} (hp : Poses jobs units p) {a : Assignment}
    {cap : Option Nat} {climb : Climb T} (h : optimize cap a jobs units = .ok climb) :
    a.Complete p.jobs p.units := by
  rw [optimize_eq_descend, hp.ofInput_eq, Except.bind] at h
  cases hplacement : p.placementOf a with
  | error e =>
    rw [hplacement] at h
    cases h
  | ok x => exact Problem.complete_of_placementOf hp.jobs_distinct hplacement

/-- A search that ends has begun at an assignment that covers the pool. -/
theorem HillClimbing.covers_of_search {policy : HillClimbing} {pool : Pool T}
    (hcheck : pool.check = .ok ()) {climb : LocalSearch.Climb T}
    (h : policy.search pool = .ok climb) : policy.initial.Covers pool.jobs pool.units := by
  cases hinitial : policy.initial with
  | explicit a =>
    have hv := Pool.valid_of_check hcheck
    obtain ⟨p, hp⟩ := LocalSearch.exists_poses hv.jobs_distinct hv.units_distinct hv.speed_pos
    simp only [search, hcheck, hinitial, InitialAssignment.build, bind, Except.bind] at h
    exact (hp.complete_of_optimize h).perm hp.jobs_perm hp.units_perm
  | random seed => trivial
  | leastLoaded => trivial

namespace Call

/-- The call asks for nothing that it cannot have of the pool. -/
def Feasible (call : Call T) (pool : Pool T) : Prop :=
  match call with
  | list _ | batch _ => True
  | roundRobin quantum => 0 < quantum
  | hillClimbing policy => policy.initial.Covers pool.jobs pool.units

/-- The call runs jobs in slices. -/
def Preempts (call : Call T) : Prop := ∃ quantum, call = .roundRobin quantum

theorem feasible_of_allocate {call : Call T} {pool : Pool T} (hcheck : pool.check = .ok ())
    {run : Allocation T} (h : call.allocate pool = .ok run) : call.Feasible pool := by
  cases call with
  | list engine => trivial
  | batch heuristic => trivial
  | roundRobin quantum =>
    rcases Nat.eq_zero_or_pos quantum with rfl | hq
    · rw [allocate_roundRobin_zero] at h
      cases h
    · exact hq
  | hillClimbing policy =>
    rw [allocate, HillClimbing.allocate] at h
    cases hsearch : policy.search pool with
    | error e =>
      rw [hsearch] at h
      cases h
    | ok climb => exact policy.covers_of_search hcheck hsearch

/-- What makes a call succeed. -/
theorem check_and_feasible {call : Call T} {pool : Pool T} {run : Allocation T}
    (h : call.allocate pool = .ok run) : pool.check = .ok () ∧ call.Feasible pool := by
  cases hcheck : pool.check with
  | ok => exact ⟨rfl, feasible_of_allocate hcheck h⟩
  | error e =>
    by_cases hcall : call = .roundRobin 0
    · rw [hcall, allocate_roundRobin_zero] at h
      cases h
    · rw [allocate_of_check_error hcheck hcall] at h
      cases h

/-- Every job runs once and is done afterwards. -/
structure Finishes (pool : Pool T) (run : Allocation T) : Prop where
  jobs_perm : (run.schedule.completions.map (·.job)).Perm (pool.jobs.map (·.id))
  jobs_eq : run.pool.jobs = pool.jobs.map Job.markCompleted

variable [LawfulQuantity T]

/-- On a pool that passes the check a feasible call that does not preempt commits a prompt plan. -/
theorem exists_commits {call : Call T} {pool : Pool T} (hcheck : pool.check = .ok ())
    (hcall : call.Feasible pool) (hpreempts : ¬ call.Preempts) :
    ∃ run, call.allocate pool = .ok run ∧ Commits pool run := by
  cases call with
  | list engine => exact ListScheduling.exists_commits_allocateBy engine hcheck
  | batch heuristic => exact heuristic.exists_commits_allocate hcheck
  | roundRobin quantum => exact absurd ⟨quantum, rfl⟩ hpreempts
  | hillClimbing policy => exact HillClimbing.exists_commits_allocate hcheck hcall

/-- On a pool that passes the check a feasible call reaches no failure. -/
theorem exists_allocate {call : Call T} {pool : Pool T} (hcheck : pool.check = .ok ())
    (hcall : call.Feasible pool) : ∃ run, call.allocate pool = .ok run ∧ Finishes pool run := by
  rcases Classical.em call.Preempts with ⟨quantum, rfl⟩ | hpreempts
  · obtain ⟨run, hok, hjobs, hserved⟩ := RoundRobin.exists_served hcall hcheck
    exact ⟨run, hok, hserved.completions_perm, hjobs.trans hserved.settle_reset⟩
  · obtain ⟨run, hok, hcommits⟩ := exists_commits hcheck hcall hpreempts
    exact ⟨run, hok, hcommits.jobs_perm, hcommits.jobs_eq⟩

theorem finishes_of_allocate {call : Call T} {pool : Pool T} {run : Allocation T}
    (h : call.allocate pool = .ok run) : Finishes pool run := by
  obtain ⟨hcheck, hcall⟩ := check_and_feasible h
  obtain ⟨other, hok, hfinishes⟩ := exists_allocate hcheck hcall
  exact Except.ok.inj (h.symm.trans hok) ▸ hfinishes

theorem exists_allocate_iff (call : Call T) (pool : Pool T) :
    (∃ run, call.allocate pool = .ok run) ↔ pool.check = .ok () ∧ call.Feasible pool :=
  ⟨fun ⟨_, h⟩ => check_and_feasible h, fun ⟨hcheck, hcall⟩ =>
    (exists_allocate hcheck hcall).imp fun _ h => h.1⟩

/-- The outcome of a call: when it fails and with what, and what it then leaves. -/
structure AllOrNothing (call : Call T) (pool : Pool T)
    (result : Except (AllocationError T) (Schedule T) × Pool T) : Prop where
  error_iff : (∃ e, result.1 = .error e) ↔ pool.check ≠ .ok () ∨ ¬ call.Feasible pool
  first_fault : ∀ fault rest, violations pool.jobs pool.units = fault :: rest →
    call ≠ .roundRobin 0 → result.1 = .error fault
  unchanged : ∀ e, result.1 = .error e → result.2 = pool

theorem on_perform_allOrNothing (call : Call T) (pool : Pool T) :
    call.AllOrNothing pool (call.perform.on pool) := by
  rw [on_perform, apply]
  constructor
  · rw [← not_iff_not, not_or, not_not, not_not, ← exists_allocate_iff]
    cases call.allocate pool <;> simp
  · intro fault rest hfaults hcall
    have hcheck : pool.check = .error fault := by
      rw [Pool.check, validate, hfaults]
    rw [allocate_of_check_error hcheck hcall]
  · intro e he
    cases h : call.allocate pool with
    | error e => rfl
    | ok run =>
      rw [h] at he
      cases he

end Call

theorem Allocator.allocate_call (allocator : Allocator) (pool : Pool T) :
    allocator.call.allocate pool = allocator.allocate pool := by
  cases allocator <;> rfl

/-- An allocator does what its call does. -/
theorem Allocator.apply_call (allocator : Allocator) (pool : Pool T) :
    allocator.call.apply pool = allocator.apply pool := by
  cases allocator <;> rfl

omit [Quantity T] in
theorem Metrics.identify_eq_ok_iff {jobs : List (Job T)} (hd : (jobs.map (·.id)).Nodup)
    {c : Completion T} {run : Completion T × Job T} :
    identify jobs c = .ok run ↔ run.1 = c ∧ run.2 ∈ jobs ∧ run.2.id = c.job := by
  constructor
  · intro h
    rw [identify] at h
    split at h
    · next job hjob =>
      cases h
      exact ⟨rfl, mem_of_findJob? hjob⟩
    · cases h
  · rintro ⟨rfl, hj, hid⟩
    rw [identify, ← hid, findJob?_of_mem hd hj]

/-- The metrics look every completion up, and find its job. -/
theorem Metrics.exists_summarize {jobs : List (Job T)} {schedule : Schedule T}
    (hd : (jobs.map (·.id)).Nodup) (hknown : ∀ c ∈ schedule.completions, c.job ∈ jobs.map (·.id))
    (hne : schedule.completions ≠ []) :
    ∃ runs, runs.map (·.1) = schedule.completions ∧
      (∀ run ∈ runs, run.2 ∈ jobs ∧ run.2.id = run.1.job) ∧
      ofSchedule schedule jobs = .ok (summarize schedule runs) := by
  have hidentify : ∀ c ∈ schedule.completions, ∃ run, identify jobs c = .ok run := by
    intro c hc
    obtain ⟨job, hj, hid⟩ := List.mem_map.mp (hknown c hc)
    exact ⟨(c, job), (identify_eq_ok_iff hd).mpr ⟨rfl, hj, hid⟩⟩
  obtain ⟨runs, hruns⟩ := exists_forall₂ hidentify
  have hfound := hruns.imp fun c run h => (identify_eq_ok_iff hd).mp h
  have heq : schedule.completions.map id = runs.map (·.1) :=
    map_eq_map_of_forall₂ (hfound.imp fun _ _ h => h.1.symm)
  rw [List.map_id] at heq
  refine ⟨runs, heq.symm, fun run hr => ?_, ?_⟩
  · obtain ⟨c, -, rfl, hj, hid⟩ := exists_of_mem_forall₂ hfound hr
    exact ⟨hj, hid⟩
  · rw [ofSchedule, if_neg (by simpa using hne), mapM_eq_ok_iff.mpr hruns]
    rfl

namespace Call.Finishes

variable {pool : Pool T} {run : Allocation T}

omit [Quantity T] in
theorem map_id_jobs (h : Finishes pool run) :
    run.pool.jobs.map (·.id) = pool.jobs.map (·.id) := by
  rw [h.jobs_eq, List.map_map]
  rfl

omit [Quantity T] in
theorem completions_eq_nil_iff (h : Finishes pool run) :
    run.schedule.completions = [] ↔ pool.jobs = [] := by
  rw [← List.map_eq_nil_iff (f := (·.job)), ← List.map_eq_nil_iff (f := (·.id)) (l := pool.jobs)]
  exact ⟨fun hnil => (hnil ▸ h.jobs_perm).nil_eq.symm, fun hnil => (hnil ▸ h.jobs_perm).eq_nil⟩

/-- The metrics of a run summarise its completions, each with its job. -/
theorem exists_summarize (h : Finishes pool run) (hv : pool.Valid) (hne : pool.jobs ≠ []) :
    ∃ runs, runs.map (·.1) = run.schedule.completions ∧
      (∀ found ∈ runs, found.2 ∈ run.pool.jobs ∧ found.2.id = found.1.job) ∧
      Metrics.ofSchedule run.schedule run.pool.jobs = .ok (.summarize run.schedule runs) := by
  refine Metrics.exists_summarize (h.map_id_jobs ▸ hv.jobs_distinct) (fun c hc => ?_)
    (mt h.completions_eq_nil_iff.mp hne)
  rw [h.map_id_jobs]
  exact h.jobs_perm.subset (List.mem_map_of_mem hc)

end Call.Finishes

namespace Report

/-- What a policy reports of the result of its call: the failure, or the schedule and the units,
with metrics if there is any job. -/
structure Conveys (policy : Policy) (pool : Pool T)
    (result : Except (AllocationError T) (Schedule T) × Pool T)
    (outcome : Except (AllocationError T) (Report T)) : Prop where
  error_iff : ∀ e, outcome = .error e ↔ result.1 = .error e
  reported : ∀ schedule, result.1 = .ok schedule → ∃ metrics,
    outcome = .ok ⟨policy, schedule, metrics, result.2.units⟩ ∧ (metrics.isSome ↔ pool.jobs ≠ [])

variable [LawfulQuantity T]

omit [LawfulQuantity T] in
/-- A run that completes a job is reported with its metrics. -/
theorem ofPolicy_eq {policy : Policy} {pool : Pool T} {run : Allocation T} {metrics : Metrics T}
    (h : policy.allocator.allocate pool = .ok run)
    (hm : Metrics.ofSchedule run.schedule run.pool.jobs = .ok metrics) :
    ofPolicy policy pool = .ok ⟨policy, run.schedule, some metrics, run.pool.units⟩ := by
  have hne : run.schedule.completions ≠ [] := fun hnil => by
    rw [Metrics.ofSchedule, hnil] at hm
    cases hm
  simp [ofPolicy, h, hne, hm, bind, Except.bind, pure, Except.pure, Functor.map, Except.map]

theorem exists_ofPolicy {policy : Policy} {pool : Pool T} {run : Allocation T}
    (h : policy.allocator.allocate pool = .ok run) :
    ∃ metrics, ofPolicy policy pool = .ok ⟨policy, run.schedule, metrics, run.pool.units⟩ ∧
      (metrics.isSome ↔ pool.jobs ≠ []) := by
  have hcall : policy.allocator.call.allocate pool = .ok run :=
    (policy.allocator.allocate_call pool).trans h
  have hfinishes := Call.finishes_of_allocate hcall
  have hv := Pool.valid_of_check (Call.check_and_feasible hcall).1
  rcases eq_or_ne pool.jobs [] with hnil | hne
  · refine ⟨none, ?_, by simp [hnil]⟩
    simp only [ofPolicy, h, hfinishes.completions_eq_nil_iff.mpr hnil, bind, Except.bind]
    rfl
  · obtain ⟨runs, -, -, hmetrics⟩ := hfinishes.exists_summarize hv hne
    exact ⟨some (.summarize run.schedule runs), ofPolicy_eq h hmetrics, by simpa using hne⟩

theorem conveys (policy : Policy) (pool : Pool T) :
    Conveys policy pool (policy.allocator.call.perform.on pool) (ofPolicy policy pool) := by
  rw [Call.on_perform, Allocator.apply_call, Allocator.apply]
  cases h : policy.allocator.allocate pool with
  | error e =>
    have hreport : ofPolicy policy pool = .error e := by
      simp only [ofPolicy, h, bind, Except.bind]
    rw [hreport]
    exact ⟨fun other => by simp, fun schedule hok => by cases hok⟩
  | ok run =>
    obtain ⟨metrics, hreport, hsome⟩ := exists_ofPolicy h
    refine ⟨fun e => by rw [hreport]; simp, fun schedule hok => ⟨metrics, ?_, hsome⟩⟩
    rw [hreport, Except.ok.inj hok]

end Report

/-- Every call is refused for a fault of its input or for what it asks for, and for nothing else. A
refused call writes nothing, and what a policy allocates it also reports. -/
theorem calls_all_or_nothing (pool : Pool Binary64) :
    (∀ call : Call Binary64, call.AllOrNothing pool (call.perform.on pool)) ∧
      (∀ allocator : Allocator, allocator.apply pool = allocator.call.perform.on pool) ∧
      ∀ policy : Policy, Report.Conveys policy pool (policy.allocator.call.perform.on pool)
        (Report.ofPolicy policy pool) := by
  refine ⟨fun call => call.on_perform_allOrNothing pool, fun allocator => ?_,
    fun policy => Report.conveys policy pool⟩
  rw [Call.on_perform, Allocator.apply_call]

end JobAllocation
