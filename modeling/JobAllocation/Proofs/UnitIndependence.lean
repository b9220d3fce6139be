import JobAllocation.Proofs.AssignmentAcceptance
import JobAllocation.Proofs.CommitmentOrder
import JobAllocation.Proofs.RealizedMakespan

/-!
# Units do not wait for each other

All units are executed in one pass over the entries, and the clocks of all of them are in one table.
Still a unit sees only its own entries: what it makes of them depends on nothing but its speed and
ready time and on the jobs that are bound to it. So the entries of different units can be listed in
any order, and a change to one unit or its jobs is not noticed on the others.
-/
namespace JobAllocation

variable {T : Type}

/-- The jobs that an assignment binds to a unit, in order of execution. -/
def Assignment.queueOf (a : Assignment) (jobs : List (Job T)) (unit : UnitId) : List (Job T) :=
  (a.jobsOf unit).filterMap (findJob? jobs)

theorem Assignment.count_entries (a : Assignment) (job : JobId) (unit : UnitId) :
    a.entries.count (job, unit) = (a.jobsOf unit).count job := by
  rw [jobsOf, List.count, List.count, List.countP_map, List.countP_filter]
  refine List.countP_congr fun entry _ => ?_
  simp [Prod.ext_iff]

/-- Assignments that list the same jobs for every unit have the same entries. -/
theorem Assignment.entries_perm_of_jobsOf_eq {a b : Assignment}
    (h : ∀ unit, b.jobsOf unit = a.jobsOf unit) : b.entries.Perm a.entries := by
  refine List.perm_iff_count.mpr fun entry => ?_
  rw [count_entries, count_entries, h]

/-- Two jobs with one number that a unit starts and ends at the same times. -/
structure Job.SameWork (job other : Job T) : Prop where
  id_eq : other.id = job.id
  length_eq : other.length = job.length
  arrival_eq : other.arrival = job.arrival

/-- Two units with one number that make the same of the same jobs. -/
structure ExecutionUnit.SamePace (unit other : ExecutionUnit T) : Prop where
  id_eq : other.id = unit.id
  speed_eq : other.speed = unit.speed
  ready_eq : other.ready = unit.ready

/-- Two pools that differ by one unit and by the jobs that an assignment binds to it. -/
structure Pool.AlikeBut (pool other : Pool T) (a : Assignment) (changed : UnitId) : Prop where
  jobs : List.Forall₂ (fun job other => other.id = job.id ∧
    (a.unitOf? job.id ≠ some changed → job.SameWork other)) pool.jobs other.jobs
  units : List.Forall₂ (fun unit other => other.id = unit.id ∧
    (unit.id ≠ changed → unit.SamePace other)) pool.units other.units

namespace Pool.AlikeBut

variable {pool other : Pool T} {a : Assignment} {changed : UnitId}

theorem complete (h : pool.AlikeBut other a changed) (ha : a.Complete pool.jobs pool.units) :
    a.Complete other.jobs other.units where
  jobs_perm := by
    rw [← map_eq_map_of_forall₂ (h.jobs.imp fun _ _ h => h.1.symm)]
    exact ha.jobs_perm
  units_known := by
    rw [← map_eq_map_of_forall₂ (h.units.imp fun _ _ h => h.1.symm)]
    exact ha.units_known

/-- The jobs that are bound to another unit are the same. -/
theorem queueOf (h : pool.AlikeBut other a changed) (hn : a.jobs.Nodup) {unit : UnitId}
    (hne : unit ≠ changed) :
    List.Forall₂ Job.SameWork (a.queueOf pool.jobs unit) (a.queueOf other.jobs unit) := by
  have hids : List.Forall₂ (fun id again => id = again ∧ id ∈ a.jobsOf unit) (a.jobsOf unit)
      (a.jobsOf unit) := List.forall₂_same.mpr fun id hid => ⟨rfl, hid⟩
  refine List.rel_filterMap ?_ hids
  intro id again hid
  obtain ⟨rfl, hid⟩ := hid
  have hbound : a.unitOf? id = some unit :=
    Assignment.unitOf?_of_mem hn (Assignment.mem_jobsOf_iff.mp hid)
  refine findRev?_rel (h.jobs.imp fun job other hjob => ⟨by rw [hjob.1], fun hfound => hjob.2 ?_⟩)
  rw [eq_of_beq hfound, hbound]
  exact fun heq => hne (Option.some.inj heq)

theorem exists_unit (h : pool.AlikeBut other a changed) {id : UnitId}
    (hid : id ∈ pool.units.map (·.id)) (hne : id ≠ changed) :
    ∃ unit ∈ pool.units, ∃ again ∈ other.units, unit.id = id ∧ unit.SamePace again := by
  obtain ⟨unit, hu, rfl⟩ := List.mem_map.mp hid
  obtain ⟨again, ha, -, hsame⟩ := exists_of_mem_forall₂ h.units.flip hu
  exact ⟨unit, hu, again, ha, rfl, hsame hne⟩

end Pool.AlikeBut

variable [Quantity T]

/-- What a unit, free from `clock` on, makes of jobs that it runs one at a time, each as soon as it
is free and the job has arrived. -/
def ExecutionUnit.carryOut (unit : ExecutionUnit T) (clock : T) : List (Job T) → List (Completion T)
  | [] => []
  | job :: rest =>
    let start := Quantity.larger clock job.arrival
    let finish := start + Quantity.ofNat job.length / unit.speed
    ⟨job.id, unit.id, start, finish⟩ :: unit.carryOut finish rest

theorem ExecutionUnit.SamePace.carryOut_eq {unit other : ExecutionUnit T} (h : unit.SamePace other)
    {queue others : List (Job T)} (hq : List.Forall₂ Job.SameWork queue others) (clock : T) :
    other.carryOut clock others = unit.carryOut clock queue := by
  induction hq generalizing clock with
  | nil => rfl
  | cons hjob _ ih =>
    simp only [ExecutionUnit.carryOut, hjob.id_eq, hjob.length_eq, hjob.arrival_eq, h.id_eq,
      h.speed_eq, ih]

namespace Execution

section OneUnit

variable {jobs : List (Job T)} {units : List (ExecutionUnit T)} {a : Assignment}
  {plan : List (Completion T)} {unit : ExecutionUnit T}

/-- However the entries of the units alternate, each unit carries out its own. -/
theorem filter_of_run (hs : ∀ unit ∈ units, 0 < unit.speed) (hd : (units.map (·.id)).Nodup)
    (hu : unit ∈ units) {seen : List JobId} {clocks : Clocks T}
    {entries : List (JobId × UnitId)} (h : run jobs units seen clocks entries = .ok plan) :
    plan.filter (·.unit == unit.id) =
      unit.carryOut (clocks.at unit)
        (((entries.filter (·.2 == unit.id)).map (·.1)).filterMap (findJob? jobs)) := by
  induction entries generalizing seen clocks plan with
  | nil =>
    cases h
    rfl
  | cons entry rest ih =>
    obtain ⟨id, unitId⟩ := entry
    obtain ⟨job, host, time, later, hjob, hhost, htime, hlater, rfl⟩ := exists_of_run_cons h
    have hrest := ih hlater
    rw [Clocks.at_cons] at hrest
    by_cases hown : unitId = unit.id
    · subst hown
      obtain rfl := Option.some.inj ((findUnit?_of_mem hd hu).symm.trans hhost)
      rw [executionTime_eq (hs unit hu)] at htime
      cases htime
      obtain ⟨-, rfl⟩ := mem_of_findJob? hjob
      rw [if_pos rfl] at hrest
      simp only [List.filter_cons, beq_self_eq_true, if_true, List.map_cons, List.filterMap_cons,
        hjob, ExecutionUnit.carryOut, hrest]
    · -- An entry of another unit leaves the clock of this one alone.
      have hother : (unitId == unit.id) = false := beq_eq_false_iff_ne.mpr hown
      rw [if_neg (Ne.symm hown)] at hrest
      simp only [List.filter_cons, hother, Bool.false_eq_true, if_false, hrest]

theorem filter_of_execute (hs : ∀ unit ∈ units, 0 < unit.speed) (hd : (units.map (·.id)).Nodup)
    (hu : unit ∈ units) (h : execute a jobs units = .ok plan) :
    plan.filter (·.unit == unit.id) = unit.carryOut unit.ready (a.queueOf jobs unit.id) :=
  filter_of_run hs hd hu (run_of_execute h)

end OneUnit

variable {pool other : Pool T} {a b : Assignment} {plan again : List (Completion T)}

omit [Quantity T] in
theorem mem_of_filter_eq {c : Completion T} (hc : c ∈ plan)
    (h : again.filter (·.unit == c.unit) = plan.filter (·.unit == c.unit)) : c ∈ again := by
  have hmem : c ∈ again.filter (·.unit == c.unit) :=
    h ▸ List.mem_filter.mpr ⟨hc, beq_self_eq_true c.unit⟩
  exact (List.mem_filter.mp hmem).1

/-- Only units that are there run anything. -/
theorem unit_mem (ha : a.Complete pool.jobs pool.units)
    (h : execute a pool.jobs pool.units = .ok plan) :
    ∀ c ∈ plan, c.unit ∈ pool.units.map (·.id) := fun c hc =>
  ha.units_known (c.job, c.unit) (map_entry_of_execute h ▸ List.mem_map_of_mem hc)

/-- Assignments that give each unit the same jobs in the same order are carried out alike. -/
theorem perm_of_jobsOf_eq (hv : pool.Valid) (ha : a.Complete pool.jobs pool.units)
    (hb : b.Complete pool.jobs pool.units) (hab : ∀ unit, b.jobsOf unit = a.jobsOf unit)
    (hplan : execute a pool.jobs pool.units = .ok plan)
    (hagain : execute b pool.jobs pool.units = .ok again) : again.Perm plan := by
  have hfilter : ∀ id ∈ pool.units.map (·.id),
      again.filter (·.unit == id) = plan.filter (·.unit == id) := by
    intro id hid
    obtain ⟨unit, hu, rfl⟩ := List.mem_map.mp hid
    rw [filter_of_execute hv.speed_pos hv.units_distinct hu hplan,
      filter_of_execute hv.speed_pos hv.units_distinct hu hagain, Assignment.queueOf, hab unit.id]
    rfl
  have hn {a : Assignment} {plan : List (Completion T)} (ha : a.Complete pool.jobs pool.units)
      (hplan : execute a pool.jobs pool.units = .ok plan) : plan.Nodup :=
    .of_map (·.job) (map_job_of_execute hplan ▸ ha.jobs_perm.nodup_iff.mpr hv.jobs_distinct)
  refine (List.perm_ext_iff_of_nodup (hn hb hagain) (hn ha hplan)).mpr fun c => ⟨?_, ?_⟩
  · exact fun hc => mem_of_filter_eq hc (hfilter c.unit (unit_mem hb hagain c hc)).symm
  · exact fun hc => mem_of_filter_eq hc (hfilter c.unit (unit_mem ha hplan c hc))

/-- What the other units do is the same before and after a change to one of them. -/
theorem filter_eq_of_alikeBut {changed : UnitId} (hv : pool.Valid) (hv' : other.Valid)
    (ha : a.Complete pool.jobs pool.units) (hother : pool.AlikeBut other a changed)
    (hplan : execute a pool.jobs pool.units = .ok plan)
    (hagain : execute a other.jobs other.units = .ok again) :
    again.filter (·.unit != changed) = plan.filter (·.unit != changed) := by
  have hn : a.jobs.Nodup := ha.jobs_perm.nodup_iff.mpr hv.jobs_distinct
  have hfilter : ∀ c ∈ plan, c.unit ≠ changed →
      again.filter (·.unit == c.unit) = plan.filter (·.unit == c.unit) := by
    intro c hc hne
    obtain ⟨unit, hu, host, hh, hid, hpace⟩ :=
      hother.exists_unit (unit_mem ha hplan c hc) hne
    rw [← hid] at hne ⊢
    have hbefore := filter_of_execute hv.speed_pos hv.units_distinct hu hplan
    have hafter := filter_of_execute hv'.speed_pos hv'.units_distinct hh hagain
    rw [hpace.id_eq, hpace.ready_eq] at hafter
    rw [hbefore, hafter]
    exact hpace.carryOut_eq (hother.queueOf hn hne) unit.ready
  -- Both list the same jobs, and every completion before the change is one after it.
  have hjobs : (again.filter (·.unit != changed)).map (·.job) =
      (plan.filter (·.unit != changed)).map (·.job) :=
    (map_job_filter hagain (· != changed)).trans (map_job_filter hplan (· != changed)).symm
  refine eq_of_map_eq (map_job_of_execute hagain ▸ hn) (List.filter_subset_self _) ?_ hjobs
  intro c hc
  obtain ⟨hc, hne⟩ := List.mem_filter.mp hc
  exact mem_of_filter_eq hc (hfilter c hc (bne_iff_ne.mp hne))

end Execution

/-- Every job gets the same unit, start and finish, however the jobs of one unit are listed among
those of the others. A change of the speed or the ready time of one unit, or of the jobs that are
bound to it, leaves every completion on the other units as it is. -/
theorem units_independent (pool : Pool Binary64) (valid : pool.check = .ok ()) (a : Assignment)
    (plan : List (Completion Binary64))
    (accepted : Execution.execute a pool.jobs pool.units = .ok plan) :
    (∀ b : Assignment, (∀ unit, b.jobsOf unit = a.jobsOf unit) →
      ∃ again, Execution.execute b pool.jobs pool.units = .ok again ∧ again.Perm plan ∧
        (again.map (·.job)).Perm (pool.jobs.map (·.id))) ∧
    ∀ (other : Pool Binary64) (changed : UnitId), other.check = .ok () →
      pool.AlikeBut other a changed →
      ∃ again, Execution.execute a other.jobs other.units = .ok again ∧
        again.map (fun c => (c.job, c.unit)) = plan.map (fun c => (c.job, c.unit)) ∧
        again.filter (·.unit != changed) = plan.filter (·.unit != changed) := by
  have hv := Pool.valid_of_check valid
  have ha := (Execution.acceptsExactly_execute hv a).accepted_iff.mp ⟨plan, accepted⟩
  refine ⟨fun b hab => ?_, fun other changed hcheck hother => ?_⟩
  · have hb := ha.of_perm_entries (Assignment.entries_perm_of_jobsOf_eq hab).symm
    obtain ⟨again, hagain, -, hjobs⟩ := Execution.exists_prompt_execute hv hb
    exact ⟨again, hagain, Execution.perm_of_jobsOf_eq hv ha hb hab accepted hagain, hjobs⟩
  · have hv' := Pool.valid_of_check hcheck
    obtain ⟨again, hagain, -, -⟩ := Execution.exists_prompt_execute hv' (hother.complete ha)
    refine ⟨again, hagain, ?_, Execution.filter_eq_of_alikeBut hv hv' ha hother accepted hagain⟩
    rw [Execution.map_entry_of_execute hagain, Execution.map_entry_of_execute accepted]

/-- Two jobs for one unit and one for the other. -/
def twoUnits : Pool Binary64 where
  jobs := [⟨0, "first", 300, 0, none, 300⟩, ⟨1, "late", 200, Quantity.ofNat 1, none, 200⟩,
    ⟨2, "second", 100, 0, none, 100⟩]
  units := [⟨0, "slow", Quantity.ofNat 30, 0⟩, ⟨1, "fast", Quantity.ofNat 70, 0⟩]

/-- The same with a slower unit that is free later and a longer job for it. -/
def twoUnitsChanged : Pool Binary64 where
  jobs := [⟨0, "first", 300, 0, none, 300⟩, ⟨1, "late", 400, Quantity.ofNat 2, none, 400⟩,
    ⟨2, "second", 100, 0, none, 100⟩]
  units := [⟨0, "slow", Quantity.ofNat 30, 0⟩, ⟨1, "fast", Quantity.ofNat 20, Quantity.ofNat 5⟩]

/-- The job of the fast unit last. -/
def lateLast : Assignment := ⟨[(0, 0), (2, 0), (1, 1)]⟩

/-- The job of the fast unit between those of the other. -/
def lateBetween : Assignment := ⟨[(0, 0), (1, 1), (2, 0)]⟩

theorem units_independent_twoUnits :
    twoUnits.check = .ok () ∧ (∀ unit, lateBetween.jobsOf unit = lateLast.jobsOf unit) ∧
      twoUnitsChanged.check = .ok () ∧ twoUnits.AlikeBut twoUnitsChanged lateLast 1 ∧
      ∃ plan between changed,
        Execution.execute lateLast twoUnits.jobs twoUnits.units = .ok plan ∧
        Execution.execute lateBetween twoUnits.jobs twoUnits.units = .ok between ∧
        Execution.execute lateLast twoUnitsChanged.jobs twoUnitsChanged.units = .ok changed ∧
        between.Perm plan ∧ changed.filter (·.unit != 1) = plan.filter (·.unit != 1) := by
  have hcheck : twoUnits.check = .ok () := twoUnits.check_eq_ok_iff.mpr (by decide +kernel)
  have hchanged : twoUnitsChanged.check = .ok () :=
    twoUnitsChanged.check_eq_ok_iff.mpr (by decide +kernel)
  have hlisted : ∀ unit, lateBetween.jobsOf unit = lateLast.jobsOf unit := by
    intro unit
    by_cases hslow : unit = 0
    · subst hslow
      decide
    · simp [Assignment.jobsOf, lateBetween, lateLast, List.filter_cons, Ne.symm hslow]
  have halike : twoUnits.AlikeBut twoUnitsChanged lateLast 1 :=
    ⟨.cons ⟨rfl, fun _ => ⟨rfl, rfl, rfl⟩⟩ (.cons ⟨rfl, fun h => absurd rfl h⟩
      (.cons ⟨rfl, fun _ => ⟨rfl, rfl, rfl⟩⟩ .nil)),
      .cons ⟨rfl, fun _ => ⟨rfl, rfl, rfl⟩⟩ (.cons ⟨rfl, fun h => absurd rfl h⟩ .nil)⟩
  have hcomplete : lateLast.Complete twoUnits.jobs twoUnits.units := ⟨by decide, by decide⟩
  obtain ⟨plan, hplan, -⟩ :=
    Execution.exists_prompt_execute (Pool.valid_of_check hcheck) hcomplete
  obtain ⟨hreordered, hother⟩ := units_independent twoUnits hcheck lateLast plan hplan
  obtain ⟨between, hbetween, hperm, -⟩ := hreordered lateBetween hlisted
  obtain ⟨changed, hagain, -, hfilter⟩ := hother twoUnitsChanged 1 hchanged halike
  exact ⟨hcheck, hlisted, hchanged, halike, plan, between, changed, hplan, hbetween, hagain, hperm,
    hfilter⟩

end JobAllocation
