import JobAllocation.Proofs.CommitmentOrder
import JobAllocation.Proofs.StrictTimes

/-!
# No job is passed over

Whenever a job is picked, every job that is committed later was a candidate if it had arrived by
then, so the rules put the picked one first. The time of the pick is not part of a schedule, but it
follows from the completions before it: a pick is made as soon as some unit is free and some job has
arrived. On one unit it is the time at which the picked job starts.
-/
namespace JobAllocation.ListScheduling

variable {T : Type} [Quantity T]

/-- The completions of a plan, each with the time at which its job was picked, if the first pick may
be made from `clock` on. -/
def timedPicks (clock : T) (pending : List (Job T)) (units : List (ExecutionUnit T)) :
    List (Completion T) → List (T × Completion T)
  | [] => []
  | c :: rest =>
    let now := decisionTime clock pending
    let units := advanceUnit units c.unit c.finish
    (now, c) :: timedPicks (Quantity.larger now (firstReady units))
      (pending.eraseP (·.id == c.job)) units rest

/-- The completions of a plan for a pool, each with the time at which its job was picked. -/
def picks (pool : Pool T) (plan : List (Completion T)) : List (T × Completion T) :=
  timedPicks (firstReady pool.units) pool.freshJobs pool.units plan

@[simp] theorem map_snd_timedPicks (clock : T) (pending : List (Job T))
    (units : List (ExecutionUnit T)) (plan : List (Completion T)) :
    (timedPicks clock pending units plan).map (·.2) = plan := by
  induction plan generalizing clock pending units with
  | nil => rfl
  | cons c rest ih => rw [timedPicks, List.map_cons, ih]

/-- At a given time the engine puts the job of one completion strictly before the job of another,
provided that the latter has arrived by a limit. -/
def GoesFirst (engine : RuleEngine T) (jobs : List (Job T)) (now : T) (limit : Job T → T)
    (c d : Completion T) : Prop :=
  ∀ a ∈ jobs, a.id = c.job → ∀ b ∈ jobs, b.id = d.job → b.arrival ≤ limit a →
    (engine.rankingAt now).precedes a b = true

namespace Decisions

variable {engine : RuleEngine T} {clock : T} {pending jobs : List (Job T)}
  {units : List (ExecutionUnit T)} {plan : List (Completion T)}

/-- A job has arrived when it is picked. -/
theorem arrival_le (h : Decisions engine clock pending units plan) (hd : (jobs.map (·.id)).Nodup)
    (hsub : pending.Sublist jobs) :
    ∀ p ∈ timedPicks clock pending units plan, ∀ a ∈ jobs, a.id = p.2.job → a.arrival ≤ p.1 := by
  induction h with
  | nil => simp [timedPicks]
  | @cons clock pending units job unit offer rest picked _ offer_eq _ ih =>
    subst offer_eq
    obtain ⟨hm, harrived⟩ := mem_of_pick? picked
    rw [timedPicks, List.forall_mem_cons]
    refine ⟨fun a ha hid => ?_, ih ((List.eraseP_sublist).trans hsub)⟩
    obtain rfl : a = job := List.inj_on_of_nodup_map hd ha (hsub.subset hm) hid
    exact harrived

/-- The picked job goes before every other one that has arrived by the time of the pick. -/
theorem precedes_of_pick? [OrderedQuantity T] {now : T} {job other : Job T}
    (picked : pick? engine now pending = some job) (hd : (pending.map (·.id)).Nodup)
    (ho : other ∈ without job pending) (harrived : other.arrival ≤ now) :
    (engine.rankingAt now).precedes job other = true := by
  have hm := (mem_of_pick? picked).1
  have hsub : without job pending ⊆ pending := List.eraseP_subset
  have hcandidates : ((arrived now pending).map (·.id)).Nodup :=
    hd.sublist (List.filter_sublist.map _)
  have hrest : ((job :: without job pending).map (·.id)).Nodup :=
    ((cons_without_perm hd hm).map _).nodup_iff.mpr hd
  rw [List.map_cons, List.nodup_cons] at hrest
  refine ((Ranking.decides _ hcandidates).eq_or_prefers picked other
    (List.mem_filter.mpr ⟨hsub ho, decide_eq_true harrived⟩)).resolve_left ?_
  rintro rfl
  exact hrest.1 (List.mem_map_of_mem ho)

/-- Of two picks the first goes before the second if the second had arrived by then. -/
theorem goesFirst [OrderedQuantity T] (h : Decisions engine clock pending units plan)
    (hd : (jobs.map (·.id)).Nodup) (hsub : pending.Sublist jobs) :
    (timedPicks clock pending units plan).Pairwise fun p q =>
      GoesFirst engine jobs p.1 (fun _ => p.1) p.2 q.2 := by
  induction h with
  | nil => exact .nil
  | @cons clock pending units job unit offer rest picked _ offer_eq tail ih =>
    subst offer_eq
    have hrest : (without job pending).Sublist jobs := List.eraseP_sublist.trans hsub
    rw [timedPicks, List.pairwise_cons]
    refine ⟨?_, ih hrest⟩
    intro q hq a ha hid b hb hlater harrived
    obtain rfl : a = job :=
      List.inj_on_of_nodup_map hd ha (hsub.subset (mem_of_pick? picked).1) hid
    -- The second is picked from what is pending after the first.
    have hmem : q.2.job ∈ (without a pending).map (·.id) := by
      refine tail.map_job_perm.subset (List.mem_map_of_mem ?_)
      rw [← map_snd_timedPicks _ _ _ rest]
      exact List.mem_map_of_mem hq
    obtain ⟨other, ho, hother⟩ := List.mem_map.mp hmem
    obtain rfl : b = other :=
      List.inj_on_of_nodup_map hd hb (hrest.subset ho) (hlater.trans hother.symm)
    exact precedes_of_pick? picked (hd.sublist (hsub.map _)) ho harrived

end Decisions

/-- When the next job starts on the only unit: once the last job before it has ended, and one of the
jobs that are left has arrived. -/
def nextStart (unit : ExecutionUnit T) (jobs : List (Job T)) (front : List (Completion T)) : T :=
  Quantity.larger ((front.getLast?.map (·.finish)).getD unit.ready)
    (Quantity.smallest ((jobs.filter fun job => job.id ∉ front.map (·.job)).map (·.arrival)))

theorem nextStart_nil (unit : ExecutionUnit T) (jobs : List (Job T)) :
    nextStart unit jobs [] =
      Quantity.larger unit.ready (Quantity.smallest (jobs.map (·.arrival))) := by
  simp [nextStart]

omit [Quantity T] in
/-- The jobs that are pending once a job is picked are those with other numbers. -/
theorem without_eq_filter {pending : List (Job T)} (hd : (pending.map (·.id)).Nodup)
    (job : Job T) : without job pending = pending.filter (·.id != job.id) := by
  induction pending with
  | nil => rfl
  | cons first rest ih =>
    rw [List.map_cons, List.nodup_cons] at hd
    by_cases heq : first.id = job.id
    · have hother : ∀ other ∈ rest, (other.id != job.id) = true := fun other ho =>
        bne_iff_ne.mpr fun hid => hd.1 ((heq.trans hid.symm) ▸ List.mem_map_of_mem ho)
      rw [without, List.eraseP_cons_of_pos (by simpa using heq),
        List.filter_cons_of_neg (by simpa using heq), List.filter_eq_self.mpr hother]
    · rw [without, List.eraseP_cons_of_neg (by simpa using heq),
        List.filter_cons_of_pos (by simpa using heq), ← ih hd.2, without]

omit [Quantity T] in
/-- What is not committed by some completions and the one before them is what the first leaves, less
what the others commit. -/
theorem filter_without {pending : List (Job T)} (hd : (pending.map (·.id)).Nodup)
    (c : Completion T) {job : Job T} (hc : c.job = job.id) (front : List (Completion T)) :
    (without job pending).filter (fun job => job.id ∉ front.map (·.job)) =
      pending.filter fun job => job.id ∉ (c :: front).map (·.job) := by
  rw [without_eq_filter hd, List.filter_filter]
  refine List.filter_congr fun other _ => ?_
  simp [hc, Bool.and_comm, ← bne_iff_ne]

/-- After one job the unit is free from its end on, and that job is no longer waited for. -/
theorem nextStart_cons {unit : ExecutionUnit T} {pending : List (Job T)}
    (hd : (pending.map (·.id)).Nodup) (c : Completion T) {job : Job T} (hc : c.job = job.id)
    (front : List (Completion T)) :
    nextStart unit pending (c :: front) =
      nextStart { unit with ready := c.finish } (without job pending) front := by
  have hready : (((c :: front).getLast?.map (·.finish)).getD unit.ready) =
      (front.getLast?.map (·.finish)).getD c.finish := by
    rw [List.getLast?_cons]
    cases front.getLast? <;> rfl
  rw [nextStart, nextStart, hready, filter_without hd c hc]

section OneUnit

variable [StrictQuantity T]

/-- A pick waits for an arrival only if no pending job has arrived yet. -/
theorem decisionTime_eq {clock : T} {pending : List (Job T)} (hc : 0 ≤ clock)
    (ha : ∀ job ∈ pending, 0 ≤ job.arrival) :
    decisionTime clock pending =
      Quantity.larger clock (Quantity.smallest (pending.map (·.arrival))) := by
  unfold decisionTime
  split
  · rfl
  · next hsome =>
    rw [List.isEmpty_iff] at hsome
    obtain ⟨job, hj⟩ := List.exists_mem_of_ne_nil _ hsome
    obtain ⟨hm, hle⟩ := List.mem_filter.mp hj
    have hfirst := Quantity.smallest_le (List.forall_mem_map.mpr ha)
      (List.mem_map_of_mem (f := (·.arrival)) hm)
    have hbehind := Quantity.le_trans hfirst (of_decide_eq_true hle)
    rw [Quantity.larger_eq hc, if_neg fun hlt => Quantity.not_le_of_lt hlt hbehind]

/-- The only unit is free again, and the next pick may be made, when the job on it ends. -/
theorem advance_single {unit : ExecutionUnit T} {now finish : T} (hready : 0 ≤ unit.ready)
    (hle : unit.ready ≤ now) (hlater : now ≤ finish) (hpos : 0 < finish) :
    advanceUnit [unit] unit.id finish = [{ unit with ready := finish }] ∧
      Quantity.larger now (firstReady (advanceUnit [unit] unit.id finish)) = finish := by
  have hunits : advanceUnit [unit] unit.id finish = [{ unit with ready := finish }] := by
    rw [advanceUnit_single,
      ExecutionUnit.advanceTo_eq (Quantity.le_trans hle hlater) hpos hready]
  refine ⟨hunits, ?_⟩
  rw [hunits, firstReady, List.map_singleton, Quantity.smallest_singleton (Quantity.le_of_lt hpos)]
  exact Quantity.larger_eq_right (Quantity.le_trans hready hle) hlater hpos

/-- On one unit a job starts when it is picked, which is as soon as the last one has ended and a
pending one has arrived. -/
theorem Decisions.start_eq {engine : RuleEngine T} {clock : T} {pending : List (Job T)}
    {units : List (ExecutionUnit T)} {plan : List (Completion T)}
    (h : Decisions engine clock pending units plan) {unit : ExecutionUnit T}
    (hu : units = [unit]) (hclock : clock = unit.ready) (hw : Working units)
    (ha : ∀ job ∈ pending, 0 ≤ job.arrival) (hl : ∀ job ∈ pending, 0 < job.length)
    (hd : (pending.map (·.id)).Nodup) :
    (∀ p ∈ timedPicks clock pending units plan, p.2.start = p.1) ∧
      ∀ front c back, plan = front ++ c :: back → c.start = nextStart unit pending front := by
  induction h generalizing unit with
  | nil => simp [timedPicks]
  | @cons clock pending units job granted offer rest picked unit_mem offer_eq _ ih =>
    subst offer_eq hu hclock
    obtain rfl := List.mem_singleton.mp unit_mem
    have hm := (mem_of_pick? picked).1
    have hready := hw.ready_nonneg granted unit_mem
    have hsub : without job pending ⊆ pending := List.eraseP_subset
    have hdue := decisionTime_eq hready ha
    obtain ⟨now, hnow⟩ : ∃ now, decisionTime granted.ready pending = now := ⟨_, rfl⟩
    rw [hnow] at hdue ih ⊢
    have hle : granted.ready ≤ now := hdue ▸ Quantity.left_le_larger hready _
    have hnonneg := Quantity.le_trans hready hle
    have hwork := hw.work_pos unit_mem (hl job hm)
    have hstart : (Offer.on job now granted).start = now := by
      rw [hdue]
      exact Quantity.larger_larger hready _
    have hfinish : (Offer.on job now granted).finish =
        now + Quantity.ofNat job.length / granted.speed := congrArg (· + _) hstart
    have hpos : 0 < (Offer.on job now granted).finish :=
      hfinish ▸ StrictQuantity.pos_add hnonneg hwork
    have hlater : now ≤ (Offer.on job now granted).finish :=
      hfinish ▸ LawfulQuantity.le_add hnonneg (Quantity.le_of_lt hwork)
    obtain ⟨hunits, hclock⟩ := advance_single hready hle hlater hpos
    obtain ⟨htimes, hstarts⟩ := ih hunits hclock (hw.advance _ _) (fun j hj => ha j (hsub hj))
      (fun j hj => hl j (hsub hj)) (hd.sublist (List.eraseP_sublist.map _))
    constructor
    · rw [timedPicks, hnow, List.forall_mem_cons]
      exact ⟨hstart, htimes⟩
    · intro front c back hplan
      rcases List.cons_eq_append_iff.mp hplan with ⟨rfl, hc⟩ | ⟨front, rfl, hrest⟩
      · obtain ⟨rfl, -⟩ := List.cons.inj hc
        rw [nextStart_nil, ← hdue]
        exact hstart
      · rw [nextStart_cons hd ((Offer.on job now granted).completion job) rfl]
        exact hstarts front c back hrest

end OneUnit

/-- The job of one completion arrived before the job of another, or at the same time with a lower
number. -/
def ComesFirst (jobs : List (Job T)) (c d : Completion T) : Prop :=
  ∀ a ∈ jobs, a.id = c.job → ∀ b ∈ jobs, b.id = d.job →
    Quantity.totalOrder a.arrival b.arrival = .lt ∨
      Quantity.totalOrder a.arrival b.arrival = .eq ∧ a.id < b.id

/-- What arrives first is taken first: what has not arrived by the time of a pick arrives later than
the job that is picked. -/
theorem Decisions.comesFirst [StrictQuantity T] {clock : T} {pending jobs : List (Job T)}
    {units : List (ExecutionUnit T)} {plan : List (Completion T)}
    (h : Decisions fcfs.rules.engine clock pending units plan) (hd : (jobs.map (·.id)).Nodup)
    (hsub : pending.Sublist jobs) (ha : ∀ job ∈ jobs, 0 ≤ job.arrival) :
    plan.Pairwise (ComesFirst jobs) := by
  have hfirst := h.goesFirst hd hsub
  have harrival := h.arrival_le hd hsub
  rw [← map_snd_timedPicks clock pending units plan, List.pairwise_map]
  refine hfirst.imp_of_mem fun {p q} hp _ hgoes a hma hac b hmb hbd => ?_
  have hcome := harrival p hp a hma hac
  by_cases hlate : b.arrival ≤ p.1
  · have hprecedes := hgoes a hma hac b hmb hbd hlate
    rw [RuleChain.rankingAt_engine, Ranking.precedes, beq_iff_eq] at hprecedes
    rcases Ordering.then_eq_lt.mp hprecedes with hlt | ⟨heq, hid⟩
    · exact .inl hlt
    · exact .inr ⟨heq, Nat.compare_eq_lt.mp hid⟩
  · have hnonneg := Quantity.le_trans (ha a hma) hcome
    exact .inl (StrictQuantity.totalOrder_of_lt (Quantity.lt_of_le_of_lt hcome
      (Quantity.lt_of_not_le (ha b hmb) hnonneg hlate)))

theorem nextStart_freshJobs (unit : ExecutionUnit T) (pool : Pool T)
    (front : List (Completion T)) :
    nextStart unit pool.freshJobs front = nextStart unit pool.jobs front := by
  simp only [nextStart, Pool.freshJobs, List.filter_map, List.map_map]
  rfl

/-- On one unit a plan for the pool puts first what goes first at the time of each start, and starts
each job as soon as it may. -/
theorem Decisions.single [StrictQuantity T] {engine : RuleEngine T} {pool : Pool T}
    {plan : List (Completion T)}
    (h : Decisions engine (firstReady pool.units) pool.freshJobs pool.units plan)
    (hv : pool.Valid) {unit : ExecutionUnit T} (single : pool.units = [unit]) :
    (plan.Pairwise fun c d => GoesFirst engine pool.freshJobs c.start (fun _ => c.start) c d) ∧
      ∀ front c back, plan = front ++ c :: back → c.start = nextStart unit pool.jobs front := by
  have hids : (pool.freshJobs.map (·.id)).Nodup := pool.map_id_freshJobs ▸ hv.jobs_distinct
  have hready := hv.working.ready_nonneg unit (single ▸ List.mem_singleton.mpr rfl)
  have hclock : firstReady pool.units = unit.ready := by
    rw [single, firstReady, List.map_singleton, Quantity.smallest_singleton hready]
  have hlength : ∀ job ∈ pool.freshJobs, 0 < job.length := by
    intro job hj
    obtain ⟨source, hs, rfl⟩ := Pool.exists_of_mem_freshJobs hj
    exact (hv.jobs_valid source hs).length_pos
  obtain ⟨htimes, hstarts⟩ :=
    h.start_eq single hclock hv.working hv.fresh_arrival_nonneg hlength hids
  constructor
  · rw [← map_snd_timedPicks (firstReady pool.units) pool.freshJobs pool.units plan,
      List.pairwise_map]
    refine (h.goesFirst hids (.refl _)).imp_of_mem fun {p q} hp _ hgoes => ?_
    rw [htimes p hp]
    exact hgoes
  · intro front c back hplan
    rw [← nextStart_freshJobs]
    exact hstarts front c back hplan

/-- List scheduling has no priority inversion. A picked job goes before every job that is committed
later and arrived no later than it did. On one unit it goes before every job that is committed later
and arrived by the time it starts, and it starts as soon as the job before it has ended and some
remaining job has arrived. Under first come, first served the completions are sorted by arrival and
number, whatever the units are. -/
theorem no_priority_inversion (engine : RuleEngine Binary64) (pool : Pool Binary64)
    (valid : pool.check = .ok ()) :
    (∃ run, allocateBy engine pool = .ok run ∧
      (run.schedule.completions.map (·.job)).Perm (pool.jobs.map (·.id)) ∧
      ((picks pool run.schedule.completions).Pairwise fun p q =>
        GoesFirst engine pool.freshJobs p.1 (fun job => job.arrival) p.2 q.2) ∧
      ∀ unit, pool.units = [unit] →
        (run.schedule.completions.Pairwise fun c d =>
          GoesFirst engine pool.freshJobs c.start (fun _ => c.start) c d) ∧
        ∀ front c back, run.schedule.completions = front ++ c :: back →
          c.start = nextStart unit pool.jobs front) ∧
    ∃ run, fcfs.allocate pool = .ok run ∧
      (run.schedule.completions.map (·.job)).Perm (pool.jobs.map (·.id)) ∧
      run.schedule.completions.Pairwise (ComesFirst pool.jobs) := by
  have hv := Pool.valid_of_check valid
  have hids : (pool.freshJobs.map (·.id)).Nodup := pool.map_id_freshJobs ▸ hv.jobs_distinct
  obtain ⟨run, hok, hdecisions⟩ := exists_decisions_allocateBy engine valid
  obtain ⟨first, hfirst, hfifo⟩ := exists_decisions_allocateBy fcfs.rules.engine valid
  refine ⟨⟨run, hok, pool.map_id_freshJobs ▸ hdecisions.map_job_perm, ?_,
    fun unit single => hdecisions.single hv single⟩,
    first, hfirst, pool.map_id_freshJobs ▸ hfifo.map_job_perm, ?_⟩
  · -- What arrived no later than the picked job has arrived when that job is picked.
    refine (hdecisions.goesFirst hids (.refl _)).imp_of_mem
      fun {p q} hp _ hgoes a ha hac b hb hbd hle => ?_
    exact hgoes a ha hac b hb hbd
      (Quantity.le_trans hle (hdecisions.arrival_le hids (.refl _) p hp a ha hac))
  · refine (hfifo.comesFirst hids (.refl _) hv.fresh_arrival_nonneg).imp ?_
    intro c d h a ha hac b hb hbd
    exact h a.reset (List.mem_map_of_mem ha) hac b.reset (List.mem_map_of_mem hb) hbd

/-- Jobs of which the one with the earliest deadline arrives while another one runs. -/
def lateButUrgent : Pool Binary64 where
  jobs := [⟨0, "long", 300, 0, none, 300⟩,
    ⟨1, "urgent", 100, Quantity.ofNat 1, some (Quantity.ofNat 5), 100⟩,
    ⟨2, "short", 200, 0, none, 200⟩]
  units := [⟨0, "only", Quantity.ofNat 100, 0⟩]

theorem no_priority_inversion_lateButUrgent :
    lateButUrgent.check = .ok () ∧ lateButUrgent.units = [⟨0, "only", Quantity.ofNat 100, 0⟩] ∧
      (∃ run, allocateBy (RuleChain.engine [.edd, .spt]) lateButUrgent = .ok run ∧
        (run.schedule.completions.Pairwise fun c d =>
          GoesFirst (RuleChain.engine [.edd, .spt]) lateButUrgent.freshJobs c.start
            (fun _ => c.start) c d) ∧
        ∀ front c back, run.schedule.completions = front ++ c :: back →
          c.start = nextStart ⟨0, "only", Quantity.ofNat 100, 0⟩ lateButUrgent.jobs front) ∧
      ∃ run, fcfs.allocate lateButUrgent = .ok run ∧
        run.schedule.completions.Pairwise (ComesFirst lateButUrgent.jobs) := by
  have hcheck : lateButUrgent.check = .ok () :=
    lateButUrgent.check_eq_ok_iff.mpr (by decide +kernel)
  obtain ⟨⟨run, hok, -, -, hsingle⟩, first, hfirst, -, hsorted⟩ :=
    no_priority_inversion (RuleChain.engine [.edd, .spt]) lateButUrgent hcheck
  exact ⟨hcheck, rfl, ⟨run, hok, hsingle _ rfl⟩, first, hfirst, hsorted⟩

end JobAllocation.ListScheduling
