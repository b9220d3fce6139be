import JobAllocation.Proofs.BatchRun
import JobAllocation.Proofs.PriorityOrder

/-!
# What a round commits

The times at which the units would complete the pending jobs are a matrix, and every commitment
changes it. A heuristic looks for the best unit of each job and then compares the jobs. What it
finds is still the best of the whole matrix by the rule that it declares, with every tie decided by
number.
-/
namespace JobAllocation

variable {T : Type} [Quantity T]

namespace Quantity

/-- Less, or no different and with the tie decided. -/
def LexLe (x y : T) (tie : Prop) : Prop := x < y ∨ Same x y ∧ tie

namespace LexLe

variable {x y z : T} {p q r : Prop}

theorem le (h : LexLe x y p) : x ≤ y := h.elim le_of_lt fun h => h.1.1

theorem trans (hxy : LexLe x y p) (hyz : LexLe y z q) (h : p → q → r) : LexLe x z r := by
  rcases hxy with hxy | ⟨hxy, hp⟩ <;> rcases hyz with hyz | ⟨hyz, hq⟩
  · exact .inl (lt_trans hxy hyz)
  · exact .inl (lt_of_lt_of_le hxy hyz.1)
  · exact .inl (lt_of_le_of_lt hxy.1 hyz)
  · exact .inr ⟨hxy.trans hyz, h hp hq⟩

/-- Values that agree stand in one place. -/
theorem congr {a b : T} (h : LexLe x y p) (hx : Same x a) (hy : Same y b) : LexLe a b p := by
  rcases h with h | ⟨h, hp⟩
  · exact .inl (lt_of_le_of_lt hx.2 (lt_of_lt_of_le h hy.1))
  · exact .inr ⟨hx.symm.trans (h.trans hy), hp⟩

variable [LawfulQuantity T]

theorem of_le (hx : 0 ≤ x) (hy : 0 ≤ y) (h : x ≤ y) (tie : Same x y → p) : LexLe x y p := by
  by_cases hlt : x < y
  · exact .inl hlt
  · exact .inr ⟨⟨h, le_of_not_lt hx hy hlt⟩, tie ⟨h, le_of_not_lt hx hy hlt⟩⟩

theorem refl (hx : 0 ≤ x) (h : p) : LexLe x x p := .inr ⟨Same.refl hx, h⟩

end LexLe
end Quantity

/-- When a unit would complete a job that it starts as soon as it is free and the job has
arrived. -/
def completionAt (job : Job T) (unit : ExecutionUnit T) : T :=
  Quantity.larger unit.ready job.arrival + Quantity.ofNat job.length / unit.speed

/-- The earliest time at which one of the units would complete a job. -/
def bestCompletion (units : List (ExecutionUnit T)) (job : Job T) : T :=
  Quantity.smallest (units.map (completionAt job))

/-- Of the units that would complete a job at the earliest time, the one with the lowest number. -/
structure CompletesFirst (units : List (ExecutionUnit T)) (job : Job T) (unit : ExecutionUnit T) :
    Prop where
  attains : Quantity.Same (completionAt job unit) (bestCompletion units job)
  lowest : ∀ other ∈ units, Quantity.Same (completionAt job other) (bestCompletion units job) →
    unit.id ≤ other.id

theorem Job.Valid.due_nonneg [LawfulQuantity T] {job : Job T} (h : job.Valid) : 0 ≤ job.due := by
  unfold Job.due
  cases hd : job.deadline with
  | none => exact Quantity.nonneg_infinity
  | some deadline => exact Quantity.le_of_lt (h.deadline_pos deadline hd).2

theorem Pool.Valid.fresh_due_nonneg [LawfulQuantity T] {pool : Pool T} (h : pool.Valid) :
    ∀ job ∈ pool.freshJobs, 0 ≤ job.due := by
  intro job hj
  obtain ⟨source, hs, rfl⟩ := Pool.exists_of_mem_freshJobs hj
  exact (h.jobs_valid source hs).due_nonneg

section Rows

variable [LawfulQuantity T] {units : List (ExecutionUnit T)} {job : Job T} {unit : ExecutionUnit T}

theorem Working.completionAt_nonneg (hw : Working units) (job : Job T) :
    ∀ unit ∈ units, 0 ≤ completionAt job unit := fun unit hu =>
  Quantity.nonneg_add (Quantity.nonneg_larger (hw.ready_nonneg unit hu) _)
    (hw.work_nonneg hu job.length)

theorem Working.bestCompletion_nonneg (hw : Working units) (job : Job T) :
    0 ≤ bestCompletion units job :=
  Quantity.nonneg_smallest (List.forall_mem_map.mpr (hw.completionAt_nonneg job))

theorem bestCompletion_le (hw : Working units) (job : Job T) (hu : unit ∈ units) :
    bestCompletion units job ≤ completionAt job unit :=
  Quantity.smallest_le (List.forall_mem_map.mpr (hw.completionAt_nonneg job))
    (List.mem_map_of_mem hu)

/-- A unit that is ahead of every other by completion time and number is the one that completes the
job first. -/
theorem completesFirst_of_lexLe (hw : Working units) (hu : unit ∈ units)
    (h : ∀ other ∈ units, Quantity.LexLe (completionAt job unit) (completionAt job other)
      (unit.id ≤ other.id)) : CompletesFirst units job unit := by
  have hle := bestCompletion_le hw job hu
  obtain ⟨time, htime, hbest⟩ := Quantity.exists_le_smallest
    (List.forall_mem_map.mpr (hw.completionAt_nonneg job)) (by simpa using hw.ne_nil)
  obtain ⟨best, hb, rfl⟩ := List.mem_map.mp htime
  have hattains : Quantity.Same (completionAt job unit) (bestCompletion units job) :=
    ⟨Quantity.le_trans (h best hb).le hbest, hle⟩
  refine ⟨hattains, fun other ho hother => ?_⟩
  rcases h other ho with hlt | ⟨-, hid⟩
  · exact absurd (hother.trans hattains.symm).1 (Quantity.not_le_of_lt hlt)
  · exact hid

/-- The offer that a job takes is that of the unit that completes it first. -/
theorem exists_completesFirst (hw : Working units) (job : Job T) :
    ∃ unit ∈ units, earliestOffer job units job.arrival = .ok (Offer.on job job.arrival unit) ∧
      CompletesFirst units job unit := by
  obtain ⟨unit, hu, hoffer⟩ := exists_earliestOffer hw job job.arrival
  refine ⟨unit, hu, hoffer, completesFirst_of_lexLe hw hu fun other ho => ?_⟩
  rcases Offer.eq_or_beats_of_earliestOffer hw hoffer other ho with heq | hbeats
  · have hunit : unit = other := congrArg Offer.unit heq
    exact hunit ▸ .refl (hw.completionAt_nonneg job unit hu) (Nat.le_refl _)
  · rw [Offer.beats, Bool.or_eq_true, Bool.and_eq_true, decide_eq_true_iff, decide_eq_true_iff,
      decide_eq_true_iff] at hbeats
    exact hbeats.imp_right (And.imp_right Nat.le_of_lt)

end Rows

namespace BatchHeuristic

/-- One job with its earliest completion goes before another one with its own. -/
def PutsFirst (heuristic : BatchHeuristic) (job other : Job T) (best otherBest : T) : Prop :=
  match heuristic with
  | minMin => Quantity.LexLe best otherBest (job.id ≤ other.id)
  | minMax => Quantity.LexLe otherBest best (job.id ≤ other.id)
  | deadlineMinMin =>
    Quantity.LexLe job.due other.due (Quantity.LexLe best otherBest (job.id ≤ other.id))

/-- What a heuristic declares to commit: the least entry of the whole matrix, or the job whose
earliest completion is the latest or which is due first, on the unit that completes it first. Jobs
and units that tie go by number. -/
def Declares (heuristic : BatchHeuristic) (pending : List (Job T)) (units : List (ExecutionUnit T))
    (job : Job T) (unit : ExecutionUnit T) : Prop :=
  match heuristic with
  | minMin => ∀ other ∈ pending, ∀ host ∈ units,
      Quantity.LexLe (completionAt job unit) (completionAt other host)
        (job.id < other.id ∨ job.id = other.id ∧ unit.id ≤ host.id)
  | minMax =>
    (∀ other ∈ pending, Quantity.LexLe (bestCompletion units other) (bestCompletion units job)
      (job.id ≤ other.id)) ∧ CompletesFirst units job unit
  | deadlineMinMin =>
    (∀ other ∈ pending, Quantity.LexLe job.due other.due
      (Quantity.LexLe (bestCompletion units job) (bestCompletion units other)
        (job.id ≤ other.id))) ∧ CompletesFirst units job unit

/-- Earliest completions that agree are compared alike. -/
theorem PutsFirst.congr {heuristic : BatchHeuristic} {job other : Job T}
    {x y best otherBest : T} (h : heuristic.PutsFirst job other x y) (hx : Quantity.Same x best)
    (hy : Quantity.Same y otherBest) : heuristic.PutsFirst job other best otherBest := by
  cases heuristic with
  | minMin => exact Quantity.LexLe.congr h hx hy
  | minMax => exact Quantity.LexLe.congr h hy hx
  | deadlineMinMin => exact h.imp_right fun ⟨hsame, h⟩ => ⟨hsame, h.congr hx hy⟩

variable [LawfulQuantity T] {heuristic : BatchHeuristic} {pending : List (Job T)}
  {units : List (ExecutionUnit T)} {job : Job T} {unit : ExecutionUnit T}

/-- The scan over jobs in ascending order takes the first by the rule, numbers included, though it
compares no numbers. -/
theorem putsFirst_of_best? {picks : List (Job T × Offer T)} {best : Job T × Offer T}
    (hsorted : picks.Pairwise fun a b => a.1.id ≤ b.1.id) (hdue : ∀ a ∈ picks, 0 ≤ a.1.due)
    (hfinish : ∀ a ∈ picks, 0 ≤ a.2.finish)
    (h : Selection.best? heuristic.prefers picks = some best) :
    ∀ a ∈ picks, heuristic.PutsFirst best.1 a.1 best.2.finish a.2.finish := by
  have hkept {x y : T} {p : Prop} (hx : 0 ≤ x) (hy : 0 ≤ y) (hlt : ¬ y < x)
      (tie : Quantity.Same x y → p) : Quantity.LexLe x y p :=
    .of_le hx hy (Quantity.le_of_not_lt hy hx hlt) tie
  refine Selection.best?_le_of_pairwise
    (fun a b => heuristic.PutsFirst a.1 b.1 a.2.finish b.2.finish) hsorted ?refl ?trans ?taken
    ?kept h
  case refl =>
    intro a ha
    have hrefl := Quantity.LexLe.refl (hfinish a ha) (Nat.le_refl a.1.id)
    cases heuristic with
    | minMin => exact hrefl
    | minMax => exact hrefl
    | deadlineMinMin => exact .refl (hdue a ha) hrefl
  case trans =>
    intro a b c hab hbc
    cases heuristic with
    | minMin => exact Quantity.LexLe.trans hab hbc Nat.le_trans
    | minMax => exact Quantity.LexLe.trans hbc hab fun hb ha => Nat.le_trans ha hb
    | deadlineMinMin => exact Quantity.LexLe.trans hab hbc fun ha hb => ha.trans hb Nat.le_trans
  case taken =>
    intro a _ b _ hp
    cases heuristic with
    | minMin => exact .inl (of_decide_eq_true hp)
    | minMax => exact .inl (of_decide_eq_true hp)
    | deadlineMinMin =>
      rw [prefers, Bool.or_eq_true, Bool.and_eq_true, decide_eq_true_iff, decide_eq_true_iff,
        decide_eq_true_iff] at hp
      exact hp.imp_right (And.imp_right .inl)
  case kept =>
    intro a ha b hb hle hp
    have hfa := hfinish a ha
    have hfb := hfinish b hb
    cases heuristic with
    | minMin => exact hkept hfa hfb (of_decide_eq_false hp) fun _ => hle
    | minMax => exact hkept hfb hfa (of_decide_eq_false hp) fun _ => hle
    | deadlineMinMin =>
      rw [prefers, Bool.or_eq_false_iff, Bool.and_eq_false_imp, decide_eq_false_iff_not,
        decide_eq_true_iff, decide_eq_false_iff_not] at hp
      exact hkept (hdue a ha) (hdue b hb) hp.1 fun hsame =>
        hkept hfa hfb (hp.2 hsame.symm) fun _ => hle

/-- A job with its offer from the unit that completes it first. -/
structure Row (units : List (ExecutionUnit T)) (pick : Job T × Offer T) : Prop where
  unit_mem : pick.2.unit ∈ units
  finish_eq : pick.2.finish = completionAt pick.1 pick.2.unit
  first : CompletesFirst units pick.1 pick.2.unit

/-- A round compares the rows of the matrix, each by its least entry. -/
theorem exists_rows (hw : Working units) (pending : List (Job T)) :
    ∃ picks, pending.mapM (bestOffer units) = .ok picks ∧ picks.map (·.1) = pending ∧
      ∀ pick ∈ picks, Row units pick := by
  have hbest : ∀ job ∈ pending, ∃ pick, bestOffer units job = .ok pick ∧
      pick.1 = job ∧ Row units pick := by
    intro job _
    obtain ⟨unit, hu, hoffer, hfirst⟩ := exists_completesFirst hw job
    exact ⟨(job, Offer.on job job.arrival unit),
      by simp [bestOffer, hoffer, bind, Except.bind, pure, Except.pure], rfl, hu, rfl, hfirst⟩
  obtain ⟨picks, hmap, hpicks⟩ := exists_mapM_ok hbest
  refine ⟨picks, hmap, ?_, fun pick hp => ?_⟩
  · have hjobs : pending.map id = picks.map (·.1) :=
      map_eq_map_of_forall₂ (hpicks.imp fun _ _ h => h.1.symm)
    rw [← hjobs, List.map_id]
  · obtain ⟨-, -, -, hrow⟩ := exists_of_mem_forall₂ hpicks hp
    exact hrow

/-- What a round picks goes before every other pending job, on the unit that completes it first. -/
theorem putsFirst_of_pick? (hw : Working units)
    (hsorted : pending.Pairwise fun a b => a.id ≤ b.id) (hdue : ∀ job ∈ pending, 0 ≤ job.due)
    (h : heuristic.pick? pending units = .ok (some (job, Offer.on job job.arrival unit))) :
    CompletesFirst units job unit ∧ ∀ other ∈ pending,
      heuristic.PutsFirst job other (bestCompletion units job) (bestCompletion units other) := by
  obtain ⟨picks, hmap, rfl, hrows⟩ := exists_rows hw pending
  simp only [pick?, hmap, bind, Except.bind, pure, Except.pure, Except.ok.injEq] at h
  have hmem := Selection.mem_of_best? h
  have hfinish : ∀ pick ∈ picks, 0 ≤ pick.2.finish := fun pick hp => by
    rw [(hrows pick hp).finish_eq]
    exact hw.completionAt_nonneg pick.1 _ (hrows pick hp).unit_mem
  have hsame : ∀ pick ∈ picks, Quantity.Same pick.2.finish (bestCompletion units pick.1) :=
    fun pick hp => by
      rw [(hrows pick hp).finish_eq]
      exact (hrows pick hp).first.attains
  rw [List.pairwise_map] at hsorted
  rw [List.forall_mem_map] at hdue
  have hfirst := putsFirst_of_best? hsorted hdue hfinish h
  exact ⟨(hrows _ hmem).first, List.forall_mem_map.mpr fun pick hp =>
    (hfirst pick hp).congr (hsame _ hmem) (hsame pick hp)⟩

/-- A round commits what its heuristic declares. -/
theorem declares_of_pick? (hw : Working units)
    (hsorted : pending.Pairwise fun a b => a.id ≤ b.id) (hd : (pending.map (·.id)).Nodup)
    (hdue : ∀ job ∈ pending, 0 ≤ job.due) (hu : unit ∈ units)
    (h : heuristic.pick? pending units = .ok (some (job, Offer.on job job.arrival unit))) :
    heuristic.Declares pending units job unit := by
  obtain ⟨hunit, hfirst⟩ := putsFirst_of_pick? hw hsorted hdue h
  cases heuristic with
  | minMax => exact ⟨hfirst, hunit⟩
  | deadlineMinMin => exact ⟨hfirst, hunit⟩
  | minMin =>
    intro other ho host hh
    -- The least entry of the other row is no more than the one of the host.
    have hle := bestCompletion_le hw other hh
    rcases hfirst other ho with hlt | ⟨hsame, hid⟩
    · exact .inl (Quantity.lt_of_le_of_lt hunit.attains.1 (Quantity.lt_of_lt_of_le hlt hle))
    · have hbest := hunit.attains.trans hsame
      refine .of_le (hw.completionAt_nonneg job unit hu) (hw.completionAt_nonneg other host hh)
        (Quantity.le_trans hbest.1 hle) fun hagree => ?_
      refine (Nat.lt_or_eq_of_le hid).imp_right fun heq => ⟨heq, ?_⟩
      obtain rfl := List.inj_on_of_nodup_map hd (mem_of_pick? h) ho heq
      exact hunit.lowest host hh (hagree.symm.trans hunit.attains)

end BatchHeuristic

omit [Quantity T] in
/-- The jobs that are left once those of some completions are committed. -/
def jobsLeft (jobs : List (Job T)) (front : List (Completion T)) : List (Job T) :=
  jobs.filter fun job => job.id ∉ front.map (·.job)

namespace BatchHeuristic

variable {heuristic : BatchHeuristic} {pending : List (Job T)} {units : List (ExecutionUnit T)}
  {job : Job T} {unit : ExecutionUnit T} {plan : List (Completion T)}

theorem Declares.subset {jobs : List (Job T)} (h : heuristic.Declares pending units job unit)
    (hsub : jobs ⊆ pending) : heuristic.Declares jobs units job unit := by
  cases heuristic with
  | minMin => exact fun other ho => h other (hsub ho)
  | minMax => exact ⟨fun other ho => h.1 other (hsub ho), h.2⟩
  | deadlineMinMin => exact ⟨fun other ho => h.1 other (hsub ho), h.2⟩

/-- Whatever has been committed before, the next completion is of what the heuristic declares. -/
theorem Rounds.exists_declared [LawfulQuantity T] (h : Rounds heuristic pending units plan)
    (hw : Working units) (hsorted : pending.Pairwise fun a b => a.id ≤ b.id)
    (hd : (pending.map (·.id)).Nodup) (hdue : ∀ job ∈ pending, 0 ≤ job.due) :
    ∀ front c back, plan = front ++ c :: back →
      ∃ job ∈ jobsLeft pending front, ∃ unit ∈ unitsAfter front units,
        c = (Offer.on job job.arrival unit).completion job ∧
          heuristic.Declares (jobsLeft pending front) (unitsAfter front units) job unit := by
  induction h with
  | nil => simp
  | @cons pending units job unit rest picked unit_mem _ ih =>
    have hsub : (pending.eraseP (·.id == job.id)).Sublist pending := List.eraseP_sublist
    intro front c back hplan
    rcases List.cons_eq_append_iff.mp hplan with ⟨rfl, hc⟩ | ⟨front, rfl, hrest⟩
    · obtain ⟨rfl, -⟩ := List.cons.inj hc
      have hleft : jobsLeft pending [] = pending := List.filter_eq_self.mpr (by simp)
      rw [hleft]
      exact ⟨job, mem_of_pick? picked, unit, unit_mem, rfl,
        declares_of_pick? hw hsorted hd hdue unit_mem picked⟩
    · have hleft : jobsLeft pending ((Offer.on job job.arrival unit).completion job :: front) =
          jobsLeft (pending.eraseP (·.id == job.id)) front :=
        (ListScheduling.filter_without hd _ rfl front).symm
      rw [hleft]
      exact ih (hw.advance _ _) (hsorted.sublist hsub) (hd.sublist (hsub.map _))
        (fun other ho => hdue other (hsub.subset ho)) front c back hrest

/-- In every round the completion that is committed is of the job and the unit that the heuristic
declares, among the jobs that are left and with the ready times that the units have by then. -/
theorem rounds_commit_declared (heuristic : BatchHeuristic) (pool : Pool Binary64)
    (valid : pool.check = .ok ()) :
    ∃ run, heuristic.allocate pool = .ok run ∧
      (run.schedule.completions.map (·.job)).Perm (pool.jobs.map (·.id)) ∧
      ∀ front c back, run.schedule.completions = front ++ c :: back →
        ∃ job ∈ jobsLeft pool.freshJobs front, ∃ unit ∈ unitsAfter front pool.units,
          c = ⟨job.id, unit.id, Quantity.larger unit.ready job.arrival, completionAt job unit⟩ ∧
          heuristic.Declares (jobsLeft pool.freshJobs front) (unitsAfter front pool.units)
            job unit := by
  have hv := Pool.valid_of_check valid
  have hperm := List.mergeSort_perm pool.freshJobs (·.id ≤ ·.id)
  have hd : ((pool.freshJobs.mergeSort (·.id ≤ ·.id)).map (·.id)).Nodup :=
    (hperm.map _).nodup_iff.mpr (pool.map_id_freshJobs ▸ hv.jobs_distinct)
  obtain ⟨run, hok, hrounds⟩ := exists_rounds_allocate heuristic valid
  refine ⟨run, hok, hrounds.map_job_perm.trans ((hperm.map _).trans (.of_eq pool.map_id_freshJobs)),
    fun front c back hplan => ?_⟩
  obtain ⟨job, hj, unit, hu, hc, hdeclares⟩ := hrounds.exists_declared hv.working
    (pairwise_mergeSort_number Job.id pool.freshJobs) hd
    (fun job hj => hv.fresh_due_nonneg job (hperm.subset hj)) front c back hplan
  have hleft := hperm.filter fun job => job.id ∉ front.map (·.job)
  exact ⟨job, hleft.subset hj, unit, hu, hc, hdeclares.subset hleft.symm.subset⟩

/-- Jobs and units out of order, with an arrival, a deadline and equal lengths. -/
def outOfOrder : Pool Binary64 where
  jobs := [⟨2, "long", 300, 0, none, 300⟩,
    ⟨1, "late", 100, Quantity.ofNat 1, some (Quantity.ofNat 9), 100⟩,
    ⟨0, "short", 100, 0, none, 100⟩]
  units := [⟨1, "second", Quantity.ofNat 100, 0⟩, ⟨0, "first", Quantity.ofNat 100, 0⟩]

theorem rounds_commit_declared_outOfOrder :
    outOfOrder.check = .ok () ∧
      ∃ run, deadlineMinMin.allocate outOfOrder = .ok run ∧
        ∀ front c back, run.schedule.completions = front ++ c :: back →
          ∃ job ∈ jobsLeft outOfOrder.freshJobs front, ∃ unit ∈ unitsAfter front outOfOrder.units,
            c = ⟨job.id, unit.id, Quantity.larger unit.ready job.arrival,
              completionAt job unit⟩ ∧
            deadlineMinMin.Declares (jobsLeft outOfOrder.freshJobs front)
              (unitsAfter front outOfOrder.units) job unit := by
  have hcheck : outOfOrder.check = .ok () := outOfOrder.check_eq_ok_iff.mpr (by decide +kernel)
  obtain ⟨run, hok, -, hrounds⟩ := rounds_commit_declared deadlineMinMin outOfOrder hcheck
  exact ⟨hcheck, run, hok, hrounds⟩

end BatchHeuristic
end JobAllocation
