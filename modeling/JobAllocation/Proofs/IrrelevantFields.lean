import JobAllocation.Proofs.RetimedAllocations

/-!
# Names and past work do not show

A run starts from the numbers, lengths and arrivals of its jobs and the numbers, speeds and ready
times of its units. Names play no part in it, nor does what an earlier run has left of a job. A
deadline is read by two policies and by the metrics.
-/
namespace JobAllocation

variable {T : Type}

/-- What every policy reads of a job. -/
def Job.work (job : Job T) : JobId × Nat × T := (job.id, job.length, job.arrival)

/-- What the policies and the metrics read of a job. -/
def Job.terms (job : Job T) : JobId × Nat × T × Option T :=
  (job.id, job.length, job.arrival, job.deadline)

/-- The pools are alike in what is told of each job, and in all but the names of their units. -/
structure Pool.Agree {A : Type} (told : Job T → A) (pool other : Pool T) : Prop where
  jobs : pool.jobs.map told = other.jobs.map told
  units : pool.units.map (fun unit => (unit.id, unit.speed, unit.ready)) =
    other.units.map fun unit => (unit.id, unit.speed, unit.ready)

/-- A change of jobs that leaves the fields by which work is timed. -/
structure Job.KeepsWork (f : Job T → Job T) : Prop where
  id_eq (job : Job T) : (f job).id = job.id
  length_eq (job : Job T) : (f job).length = job.length
  arrival_eq (job : Job T) : (f job).arrival = job.arrival

/-- A change of jobs that also has nothing to do with the work that is left. -/
structure Job.Relabels (f : Job T → Job T) : Prop extends Job.KeepsWork f where
  remaining_comm (job : Job T) (n : Nat) :
    f { job with remaining := n } = { f job with remaining := n }

def ExecutionUnit.anonymous (unit : ExecutionUnit T) : ExecutionUnit T := { unit with name := "" }

def Job.anonymous (job : Job T) : Job T := { job with name := "" }

def Job.undated (job : Job T) : Job T := { job with name := "", deadline := none }

theorem Job.relabels_anonymous : Relabels (anonymous : Job T → Job T) :=
  ⟨⟨fun _ => rfl, fun _ => rfl, fun _ => rfl⟩, fun _ _ => rfl⟩

theorem Job.relabels_undated : Relabels (undated : Job T → Job T) :=
  ⟨⟨fun _ => rfl, fun _ => rfl, fun _ => rfl⟩, fun _ _ => rfl⟩

/-- Two pools without labels, of which the second has the same fresh jobs and units. -/
structure Pool.AgreeUnder (f : Job T → Job T) (pool other : Pool T) : Prop where
  jobs : pool.freshJobs.map f = other.freshJobs.map f
  units : pool.units.map ExecutionUnit.anonymous = other.units.map ExecutionUnit.anonymous

namespace Pool.Agree

variable {pool other : Pool T}

theorem agreeUnder {A : Type} {told : Job T → A} (h : pool.Agree told other) {f : Job T → Job T}
    (rebuild : A → Job T) (hf : ∀ job, f (Job.reset job) = rebuild (told job)) :
    pool.AgreeUnder f other where
  jobs := by
    have hrebuild (pool : Pool T) : pool.freshJobs.map f = (pool.jobs.map told).map rebuild := by
      rw [Pool.freshJobs, List.map_map, List.map_map]
      exact List.map_congr_left fun job _ => hf job
    rw [hrebuild, hrebuild, h.jobs]
  units := by
    have hrebuild (pool : Pool T) : pool.units.map ExecutionUnit.anonymous =
        (pool.units.map fun unit => (unit.id, unit.speed, unit.ready)).map
          fun kept => ⟨kept.1, "", kept.2.1, kept.2.2⟩ := by
      rw [List.map_map]
      rfl
    rw [hrebuild, hrebuild, h.units]

theorem anonymous (h : pool.Agree Job.terms other) : pool.AgreeUnder Job.anonymous other :=
  h.agreeUnder (fun (id, length, arrival, deadline) => ⟨id, "", length, arrival, deadline, length⟩)
    fun _ => rfl

theorem undated (h : pool.Agree Job.work other) : pool.AgreeUnder Job.undated other :=
  h.agreeUnder (fun (id, length, arrival) => ⟨id, "", length, arrival, none, length⟩) fun _ => rfl

end Pool.Agree

variable {f : Job T → Job T}

/-- The allocation without labels. -/
def Allocation.relabel (f : Job T → Job T) (run : Allocation T) : Allocation T :=
  ⟨run.schedule, run.pool.jobs.map f, run.pool.units.map ExecutionUnit.anonymous⟩

variable [Quantity T]

/-- A change of labels moves no time. -/
def Job.KeepsWork.retiming (hf : KeepsWork f) : Retiming T where
  job := f
  unit := ExecutionUnit.anonymous
  time t := t
  job_id := hf.id_eq
  job_length := hf.length_eq
  job_arrival := hf.arrival_eq
  unit_id _ := rfl
  unit_speed _ := rfl
  unit_comm _ _ := rfl
  time_le _ _ := .rfl
  time_totalOrder _ _ := rfl
  time_add _ _ := rfl
  time_infinity := rfl

theorem Job.KeepsWork.still (hf : KeepsWork f) : hf.retiming.Still := fun _ => rfl

theorem Job.KeepsWork.allocation_eq (hf : KeepsWork f) :
    hf.retiming.allocation = Allocation.relabel f := by
  funext run
  rw [Retiming.allocation, hf.still.schedule_eq]
  rfl

omit [Quantity T] in
theorem Policy.ranksByDeadline_iff (policy : Policy) :
    policy.allocator.RanksByDeadline ↔ policy = .edf ∨ policy = .deadlineMinMin := by
  cases policy <;>
    simp [allocator, Allocator.RanksByDeadline, ListScheduling.fcfs, ListScheduling.sjf,
      ListScheduling.edf]

/-- What an allocation does, without labels, depends on the pool without labels only. -/
theorem Policy.allocate_relabel (hf : Job.Relabels f) {policy : Policy}
    (hdue : policy = .edf ∨ policy = .deadlineMinMin → ∀ job, (f job).due = job.due)
    {pool other : Pool T} (h : pool.check = .ok ()) (h' : other.check = .ok ())
    (hagree : pool.AgreeUnder f other) :
    (policy.allocator.allocate pool).map (Allocation.relabel f) =
      (policy.allocator.allocate other).map (Allocation.relabel f) := by
  have hprogress : hf.toKeepsWork.retiming.KeepsProgress := hf.remaining_comm
  have hdates : policy.allocator.RanksByDeadline → ∀ job, (f job).due = job.due :=
    fun hranks => hdue (policy.ranksByDeadline_iff.mp hranks)
  have hcall : policy.allocator.call.KeepsOrder hf.toKeepsWork.retiming :=
    Allocator.keepsOrder_call hdates
  have hfresh (pool : Pool T) (h : pool.check = .ok ()) :
      (policy.allocator.allocate pool).map (Allocation.relabel f) =
        policy.allocator.call.allocateFresh (pool.freshJobs.map f)
          (pool.units.map ExecutionUnit.anonymous) := by
    rw [← Allocator.allocate_call, Call.allocate_eq_fresh _ h, ← hf.toKeepsWork.allocation_eq,
      ← Call.allocateFresh_retime hprogress hcall]
    rfl
  rw [hfresh pool h, hfresh other h', hagree.jobs, hagree.units]

namespace Metrics

theorem identify_relabel (hf : Job.KeepsWork f) (jobs : List (Job T))
    (completions : List (Completion T)) :
    completions.mapM (identify (jobs.map f)) =
      (completions.mapM (identify jobs)).map (List.map (Prod.map id f)) := by
  have hall := identify_retime hf.retiming jobs completions
  have hsame : hf.retiming.completion = id := funext hf.still.completion_eq
  rwa [hsame, List.map_id] at hall

theorem summarize_relabel (hf : Job.KeepsWork f)
    (hdeadline : ∀ job, (f job).deadline = job.deadline) (schedule : Schedule T)
    (runs : List (Completion T × Job T)) :
    summarize schedule (runs.map (Prod.map id f)) = summarize schedule runs := by
  have hdeadlines : hf.retiming.MovesDeadlines := fun job =>
    (hdeadline job).trans (Option.map_id_apply).symm
  have hall := summarize_retime (φ := hf.retiming) (fun _ _ => rfl) hdeadlines schedule runs
  have hsame : hf.retiming.completion = id := funext hf.still.completion_eq
  rw [hsame, hf.still.schedule_eq] at hall
  exact hall

end Metrics

namespace Report

/-- What is reported, without labels. -/
def outcome (report : Report T) : Schedule T × Option (Metrics T) × List T :=
  (report.schedule, report.metrics, report.units.map (·.ready))

/-- What is planned, whatever it comes to. -/
def plan (report : Report T) : Schedule T × List T :=
  (report.schedule, report.units.map (·.ready))

/-- A view of a report that sees no labels is the same for relabelled runs. -/
structure Unlabelled {A : Type} (f : Job T → Job T) (view : Report T → A) : Prop where
  without_metrics : ∀ policy schedule units,
    view ⟨policy, schedule, none, units.map ExecutionUnit.anonymous⟩ =
      view ⟨policy, schedule, none, units⟩
  with_metrics : ∀ policy schedule runs units,
    view ⟨policy, schedule, some (.summarize schedule (runs.map (Prod.map id f))),
        units.map ExecutionUnit.anonymous⟩ =
      view ⟨policy, schedule, some (.summarize schedule runs), units⟩

omit [Quantity T] in
theorem map_ready_anonymous (units : List (ExecutionUnit T)) :
    (units.map ExecutionUnit.anonymous).map (·.ready) = units.map (·.ready) := by
  rw [List.map_map]
  rfl

theorem unlabelled_outcome (hf : Job.KeepsWork f)
    (hdeadline : ∀ job, (f job).deadline = job.deadline) : Unlabelled f outcome where
  without_metrics _ _ units := by rw [outcome, map_ready_anonymous, outcome]
  with_metrics _ _ runs units := by
    rw [outcome, map_ready_anonymous, Metrics.summarize_relabel hf hdeadline, outcome]

theorem unlabelled_plan : Unlabelled f plan where
  without_metrics _ _ units := by rw [plan, map_ready_anonymous, plan]
  with_metrics _ _ runs units := by rw [plan, map_ready_anonymous, plan]

variable {A : Type} {view : Report T → A}

theorem Unlabelled.map_ofRun (hv : Unlabelled f view) (hf : Job.KeepsWork f) (policy : Policy)
    (run : Allocation T) :
    (ofRun policy (run.relabel f)).map view = (ofRun policy run).map view := by
  rw [ofRun_eq, ofRun_eq, Allocation.relabel, Metrics.identify_relabel hf]
  split
  · exact congrArg Except.ok (hv.without_metrics policy run.schedule run.pool.units)
  · cases run.schedule.completions.mapM (Metrics.identify run.pool.jobs) with
    | error e => rfl
    | ok runs =>
      exact congrArg Except.ok (hv.with_metrics policy run.schedule runs run.pool.units)

/-- Runs that do the same without labels are reported alike. -/
theorem Unlabelled.map_ofPolicy (hv : Unlabelled f view) (hf : Job.KeepsWork f) (policy : Policy)
    {pool other : Pool T}
    (h : (policy.allocator.allocate pool).map (Allocation.relabel f) =
      (policy.allocator.allocate other).map (Allocation.relabel f)) :
    (ofPolicy policy pool).map view = (ofPolicy policy other).map view := by
  have hrelabel (pool : Pool T) : (ofPolicy policy pool).map view =
      (policy.allocator.allocate pool).map (Allocation.relabel f) >>= fun run =>
        (ofRun policy run).map view := by
    change (policy.allocator.allocate pool >>= ofRun policy).map view = _
    cases policy.allocator.allocate pool with
    | error e => rfl
    | ok run => exact (hv.map_ofRun hf policy run).symm
  rw [hrelabel, hrelabel, h]

/-- If one of two runs that are reported alike succeeds, so does the other. -/
theorem exists_alike [LawfulQuantity T] {policy : Policy} {pool other : Pool T}
    (h : (ofPolicy policy pool).map view = (ofPolicy policy other).map view) {run : Allocation T}
    (hrun : policy.allocator.allocate pool = .ok run) :
    ∃ report again, ofPolicy policy pool = .ok report ∧ ofPolicy policy other = .ok again ∧
      view report = view again := by
  obtain ⟨metrics, hreport, -⟩ := exists_ofPolicy hrun
  rw [hreport] at h
  cases hagain : ofPolicy policy other with
  | error e =>
    rw [hagain] at h
    cases h
  | ok again =>
    rw [hagain] at h
    exact ⟨_, again, hreport, rfl, Except.ok.inj h⟩

end Report

/-- Names and past work do not show in what any policy does, and deadlines only in what two of them
do and in the metrics. -/
theorem irrelevant_fields_unseen (policy : Policy) (pool other : Pool T)
    (valid : pool.check = .ok ()) (other_valid : other.check = .ok ()) :
    (pool.Agree Job.terms other →
      (Report.ofPolicy policy pool).map Report.outcome =
        (Report.ofPolicy policy other).map Report.outcome) ∧
    (policy ≠ .edf → policy ≠ .deadlineMinMin → pool.Agree Job.work other →
      (Report.ofPolicy policy pool).map Report.plan =
        (Report.ofPolicy policy other).map Report.plan) := by
  constructor
  · intro hagree
    have hf := Job.relabels_anonymous (T := T)
    exact (Report.unlabelled_outcome hf.toKeepsWork fun _ => rfl).map_ofPolicy hf.toKeepsWork policy
      (policy.allocate_relabel hf (fun _ _ => rfl) valid other_valid hagree.anonymous)
  · intro hedf hdeadline hagree
    have hf := Job.relabels_undated (T := T)
    exact Report.unlabelled_plan.map_ofPolicy hf.toKeepsWork policy
      (policy.allocate_relabel hf (fun h => (h.elim hedf hdeadline).elim) valid other_valid
        hagree.undated)

/-- Two jobs with deadlines, before any run. -/
def firstRun : Pool Binary64 where
  jobs := [⟨0, "long", 200, 0, some (Quantity.ofNat 9), 200⟩,
    ⟨1, "short", 100, Quantity.ofNat 1, some (Quantity.ofNat 5), 100⟩]
  units := [⟨0, "slow", Quantity.ofNat 50, 0⟩, ⟨1, "fast", Quantity.ofNat 70, 0⟩]

/-- The same jobs after a run, under other names. -/
def rerun : Pool Binary64 where
  jobs := [⟨0, "", 200, 0, some (Quantity.ofNat 9), 0⟩,
    ⟨1, "other", 100, Quantity.ofNat 1, some (Quantity.ofNat 5), 30⟩]
  units := [⟨0, "unit", Quantity.ofNat 50, 0⟩, ⟨1, "unit", Quantity.ofNat 70, 0⟩]

/-- The same jobs after a run, under other names and with other deadlines. -/
def rescheduled : Pool Binary64 where
  jobs := [⟨0, "", 200, 0, some (Quantity.ofNat 2), 0⟩,
    ⟨1, "other", 100, Quantity.ofNat 1, none, 30⟩]
  units := rerun.units

theorem irrelevant_fields_unseen_rerun :
    firstRun.check = .ok () ∧ rerun.check = .ok () ∧ rescheduled.check = .ok () ∧
      firstRun.Agree Job.terms rerun ∧ firstRun.Agree Job.work rescheduled ∧
      (∃ report again, Report.ofPolicy .edf firstRun = .ok report ∧
        Report.ofPolicy .edf rerun = .ok again ∧ report.outcome = again.outcome) ∧
      ∃ report again, Report.ofPolicy (.hillClimbing .leastLoaded) firstRun = .ok report ∧
        Report.ofPolicy (.hillClimbing .leastLoaded) rescheduled = .ok again ∧
        report.plan = again.plan := by
  have hfirst : firstRun.check = .ok () := firstRun.check_eq_ok_iff.mpr (by decide +kernel)
  have hrerun : rerun.check = .ok () := rerun.check_eq_ok_iff.mpr (by decide +kernel)
  have hrescheduled : rescheduled.check = .ok () :=
    rescheduled.check_eq_ok_iff.mpr (by decide +kernel)
  have hterms : firstRun.Agree Job.terms rerun := ⟨rfl, rfl⟩
  have hwork : firstRun.Agree Job.work rescheduled := ⟨rfl, rfl⟩
  have hedf := (irrelevant_fields_unseen .edf firstRun rerun hfirst hrerun).1 hterms
  have hclimb := (irrelevant_fields_unseen (.hillClimbing .leastLoaded) firstRun rescheduled hfirst
    hrescheduled).2 nofun nofun hwork
  obtain ⟨listed, hlisted, -⟩ :=
    ListScheduling.exists_commits_allocateBy ListScheduling.edf.rules.engine hfirst
  have hcovers : InitialAssignment.leastLoaded.Covers firstRun.jobs firstRun.units := trivial
  obtain ⟨climbed, hclimbed, -⟩ : ∃ run, HillClimbing.allocate ⟨.leastLoaded, none⟩ firstRun =
      .ok run ∧ Commits firstRun run := HillClimbing.exists_commits_allocate hfirst hcovers
  exact ⟨hfirst, hrerun, hrescheduled, hterms, hwork, Report.exists_alike hedf hlisted,
    Report.exists_alike hclimb hclimbed⟩

end JobAllocation
