import JobAllocation.Proofs.BatchChoices
import JobAllocation.Proofs.HonestSchedules

/-!
# Jobs are committed in the order in which they finish

A commitment makes no unit free earlier, so no entry of the matrix of completion times ever falls.
What a round commits as the least of the matrix is therefore done no later than whatever the rounds
after it commit. Only the monotonicity of sums is used, which rounding keeps.
-/
namespace JobAllocation

variable {T : Type} [Quantity T]

/-- Whether a job is due no later than another one. A job without a deadline is due after every job
with one. -/
def Job.DueNoLater (job other : Job T) : Prop :=
  ∀ deadline ∈ other.deadline, ∃ earlier ∈ job.deadline, earlier ≤ deadline

section Times

variable [LawfulQuantity T]

/-- No unit completes a job earlier than one of the units could when they were free earlier. -/
theorem NoEarlier.bestCompletion_le {units later : List (ExecutionUnit T)}
    (h : NoEarlier units later) (hw : Working units) {job : Job T} (ha : 0 ≤ job.arrival)
    {unit : ExecutionUnit T} (hu : unit ∈ later) :
    bestCompletion units job ≤ completionAt job unit := by
  obtain ⟨first, hf, -, hspeed, hready⟩ := h unit hu
  have hwork := hw.work_nonneg hf job.length
  have hstart := Quantity.larger_le_larger (hw.ready_nonneg first hf) ha hready
    (Quantity.le_refl ha)
  refine Quantity.le_trans (JobAllocation.bestCompletion_le hw job hf) ?_
  rw [completionAt, completionAt, ← hspeed]
  exact LawfulQuantity.add_le_add (Quantity.nonneg_larger (hw.ready_nonneg first hf) _) hstart
    hwork (Quantity.le_refl hwork)

end Times

/-- In a list of positive times that never fall the last one is the largest. -/
theorem Quantity.largest_eq_getLast [StrictQuantity T] {xs : List T}
    (hsorted : xs.Pairwise (· ≤ ·)) (hpos : ∀ x ∈ xs, 0 < x) {last : T}
    (h : xs.getLast? = some last) : largest xs = last := by
  obtain ⟨front, rfl⟩ := List.getLast?_eq_some_iff.mp h
  have hlast := hpos last (by simp)
  have hle : ∀ x ∈ front ++ [last], x ≤ last := by
    intro x hx
    rcases List.mem_append.mp hx with hx | hx
    · exact (List.pairwise_append.mp hsorted).2.2 x hx last (List.mem_singleton.mpr rfl)
    · rw [List.mem_singleton.mp hx]
      exact le_refl (le_of_lt hlast)
  refine (OrderedQuantity.eq_of_same ⟨?_, ?_⟩ hlast).symm
  · exact le_largest (fun x hx => le_of_lt (hpos x hx)) (by simp)
  · exact largest_le (le_of_lt hlast) hle

namespace BatchHeuristic

/-- The job of the first of two completions went before the job of the second, which could have been
done at `best` then and was done no earlier. -/
def Outranks (heuristic : BatchHeuristic) (jobs : List (Job T)) (c d : Completion T) : Prop :=
  ∀ a ∈ jobs, a.id = c.job → ∀ b ∈ jobs, b.id = d.job →
    ∃ best, heuristic.PutsFirst a b c.finish best ∧ best ≤ d.finish

namespace Rounds

variable {heuristic : BatchHeuristic} {pending jobs : List (Job T)}
  {units later : List (ExecutionUnit T)} {plan : List (Completion T)}

theorem finish_pos [StrictQuantity T] (h : Rounds heuristic pending units plan) (hw : Working units)
    (hl : ∀ job ∈ pending, 0 < job.length) : ∀ c ∈ plan, 0 < c.finish := by
  induction h with
  | nil => simp
  | @cons pending units job unit rest picked unit_mem _ ih =>
    refine List.forall_mem_cons.mpr ⟨?_, ih (hw.advance _ _)
      fun other ho => hl other (List.eraseP_subset ho)⟩
    exact StrictQuantity.pos_add (Quantity.nonneg_larger (hw.ready_nonneg unit unit_mem) _)
      (hw.work_pos unit_mem (hl job (mem_of_pick? picked)))

variable [LawfulQuantity T]

/-- A job is never done earlier than it could have been before some rounds. -/
theorem bestCompletion_le (h : Rounds heuristic pending later plan) (hno : NoEarlier units later)
    (hw : Working units) (hd : (jobs.map (·.id)).Nodup) (hsub : pending ⊆ jobs)
    (ha : ∀ job ∈ jobs, 0 ≤ job.arrival) :
    ∀ c ∈ plan, ∀ job ∈ jobs, job.id = c.job → bestCompletion units job ≤ c.finish := by
  induction h with
  | nil => simp
  | @cons pending later job unit rest picked unit_mem _ ih =>
    refine List.forall_mem_cons.mpr ⟨fun other ho hid => ?_, ih (hno.advance _ _)
      fun _ ho => hsub (List.eraseP_subset ho)⟩
    obtain rfl := List.inj_on_of_nodup_map hd ho (hsub (mem_of_pick? picked)) hid
    exact hno.bestCompletion_le hw (ha other ho) unit_mem

/-- What a round commits outranks what the rounds after it commit. Each of these jobs was pending
when the round compared them, and no unit has become free earlier since. -/
theorem outranks (h : Rounds heuristic pending units plan) (hw : Working units)
    (hsorted : jobs.Pairwise fun a b => a.id ≤ b.id) (hd : (jobs.map (·.id)).Nodup)
    (hsub : pending.Sublist jobs) (hdue : ∀ job ∈ jobs, 0 ≤ job.due)
    (ha : ∀ job ∈ jobs, 0 ≤ job.arrival) : plan.Pairwise (Outranks heuristic jobs) := by
  induction h with
  | nil => exact .nil
  | @cons pending units job unit rest picked unit_mem tail ih =>
    have hrest : (pending.eraseP (·.id == job.id)).Sublist jobs := List.eraseP_sublist.trans hsub
    refine .cons ?_ (ih (hw.advance _ _) hrest)
    intro d hmem a hma hac b hmb hbd
    obtain rfl := List.inj_on_of_nodup_map hd hma (hsub.subset (mem_of_pick? picked)) hac
    -- What is committed later was pending too.
    have hpending : b ∈ pending := by
      obtain ⟨other, ho, hid⟩ := List.mem_map.mp
        (tail.map_job_perm.subset (List.mem_map_of_mem hmem))
      obtain rfl := List.inj_on_of_nodup_map hd hmb (hrest.subset ho) (hbd.trans hid.symm)
      exact List.eraseP_subset ho
    obtain ⟨hunit, hfirst⟩ := putsFirst_of_pick? hw (hsorted.sublist hsub)
      (fun other ho => hdue other (hsub.subset ho)) picked
    have hno := (noEarlier_refl hw).advance unit.id (Offer.on a a.arrival unit).finish
    refine ⟨bestCompletion units b, (hfirst b hpending).congr hunit.attains.symm ?_,
      tail.bestCompletion_le hno hw hd hrest.subset ha d hmem b hmb hbd⟩
    exact Quantity.Same.refl (hw.bestCompletion_nonneg b)

end Rounds

namespace Outranks

variable {jobs : List (Job T)} {a b : Job T} {c d : Completion T}

theorem finish_le (h : Outranks minMin jobs c d) (ha : a ∈ jobs) (hac : a.id = c.job)
    (hb : b ∈ jobs) (hbd : b.id = d.job) : c.finish ≤ d.finish := by
  obtain ⟨best, hfirst, hle⟩ := h a ha hac b hb hbd
  exact Quantity.le_trans (Quantity.LexLe.le hfirst) hle

theorem due_le (h : Outranks deadlineMinMin jobs c d) (ha : a ∈ jobs) (hac : a.id = c.job)
    (hb : b ∈ jobs) (hbd : b.id = d.job) : a.due ≤ b.due := by
  obtain ⟨best, hfirst, -⟩ := h a ha hac b hb hbd
  exact Quantity.LexLe.le hfirst

theorem finish_le_of_due_le (h : Outranks deadlineMinMin jobs c d) (ha : a ∈ jobs)
    (hac : a.id = c.job) (hb : b ∈ jobs) (hbd : b.id = d.job) (hdue : b.due ≤ a.due) :
    c.finish ≤ d.finish := by
  obtain ⟨best, hlt | ⟨-, hfirst⟩, hle⟩ := h a ha hac b hb hbd
  · exact absurd hdue (Quantity.not_le_of_lt hlt)
  · exact Quantity.le_trans hfirst.le hle

end Outranks

/-- The completions of an allocation stand in the order that its heuristic keeps, and none of them
is at time zero. -/
theorem exists_outranks_allocate [StrictQuantity T] (heuristic : BatchHeuristic) {pool : Pool T}
    (valid : pool.check = .ok ()) :
    ∃ run, heuristic.allocate pool = .ok run ∧
      (run.schedule.completions.map (·.job)).Perm (pool.jobs.map (·.id)) ∧
      (∀ c ∈ run.schedule.completions, 0 < c.finish) ∧
      run.schedule.completions.Pairwise (Outranks heuristic pool.jobs) := by
  have hv := Pool.valid_of_check valid
  have hperm := List.mergeSort_perm pool.freshJobs (·.id ≤ ·.id)
  have hids := (hperm.map (·.id)).trans (.of_eq pool.map_id_freshJobs)
  obtain ⟨run, hok, hrounds⟩ := exists_rounds_allocate heuristic valid
  have houtranks := hrounds.outranks hv.working (pairwise_mergeSort_number Job.id pool.freshJobs)
    (hids.nodup_iff.mpr hv.jobs_distinct) (.refl _)
    (fun job hj => hv.fresh_due_nonneg job (hperm.subset hj))
    (fun job hj => hv.fresh_arrival_nonneg job (hperm.subset hj))
  refine ⟨run, hok, hrounds.map_job_perm.trans hids, ?_,
    houtranks.imp fun h a ha hac b hb hbd => ?_⟩
  · refine hrounds.finish_pos hv.working fun job hj => ?_
    obtain ⟨source, hs, rfl⟩ := Pool.exists_of_mem_freshJobs (hperm.subset hj)
    exact (hv.jobs_valid source hs).length_pos
  · -- Neither the deadline nor the number of a job changes when its work is reset.
    exact h a.reset (hperm.symm.subset (List.mem_map_of_mem ha)) hac b.reset
      (hperm.symm.subset (List.mem_map_of_mem hb)) hbd

end BatchHeuristic

theorem Binary64.lt_infinity {x : Binary64} (hf : Quantity.isFinite x = true) (hx : 0 ≤ x) :
    x < Quantity.infinity := by
  refine (StrictQuantity.lt_or_eq_infinity hx).resolve_right ?_
  rintro rfl
  cases hf

/-- The time that stands for a missing deadline is after every deadline. -/
theorem Job.Valid.dueNoLater {a b : Job Binary64} (hb : b.Valid) (h : a.due ≤ b.due) :
    a.DueNoLater b := by
  intro deadline hbd
  obtain ⟨hfinite, hpos⟩ := hb.deadline_pos deadline hbd
  have hnever := Quantity.not_le_of_lt (Binary64.lt_infinity hfinite (Quantity.le_of_lt hpos))
  rw [due, due, Option.mem_def.mp hbd] at h
  cases had : a.deadline with
  | none =>
    rw [had] at h
    exact absurd h hnever
  | some earlier =>
    rw [had] at h
    exact ⟨earlier, rfl, h⟩

namespace BatchHeuristic

/-- Min-min commits in the order in which jobs finish, so the last completion ends the schedule.
With deadlines it commits in the order of these, and among jobs with one deadline in the order in
which they finish. -/
theorem completions_in_finish_order (pool : Pool Binary64) (valid : pool.check = .ok ()) :
    (∃ run, minMin.allocate pool = .ok run ∧
      (run.schedule.completions.map (·.job)).Perm (pool.jobs.map (·.id)) ∧
      run.schedule.completions.Pairwise (fun c d => c.finish ≤ d.finish) ∧
      ∀ last ∈ run.schedule.completions.getLast?, run.schedule.makespan = last.finish) ∧
    ∃ run, deadlineMinMin.allocate pool = .ok run ∧
      (run.schedule.completions.map (·.job)).Perm (pool.jobs.map (·.id)) ∧
      run.schedule.completions.Pairwise fun c d =>
        ∀ a ∈ pool.jobs, a.id = c.job → ∀ b ∈ pool.jobs, b.id = d.job →
          a.DueNoLater b ∧ (a.deadline = b.deadline → c.finish ≤ d.finish) := by
  have hv := Pool.valid_of_check valid
  refine ⟨?_, ?_⟩
  · obtain ⟨run, hok, hperm, hpos, houtranks⟩ := exists_outranks_allocate minMin valid
    have hfinish : run.schedule.completions.Pairwise fun c d => c.finish ≤ d.finish := by
      refine houtranks.imp_of_mem fun {c d} hc hd h => ?_
      obtain ⟨a, ha, hac⟩ := List.mem_map.mp (hperm.subset (List.mem_map_of_mem hc))
      obtain ⟨b, hb, hbd⟩ := List.mem_map.mp (hperm.subset (List.mem_map_of_mem hd))
      exact h.finish_le ha hac hb hbd
    refine ⟨run, hok, hperm, hfinish, fun last hlast => ?_⟩
    refine Quantity.largest_eq_getLast (List.pairwise_map.mpr hfinish)
      (List.forall_mem_map.mpr hpos) ?_
    rw [List.getLast?_map, Option.mem_def.mp hlast]
    rfl
  · obtain ⟨run, hok, hperm, -, houtranks⟩ := exists_outranks_allocate deadlineMinMin valid
    refine ⟨run, hok, hperm, houtranks.imp fun h a ha hac b hb hbd => ?_⟩
    refine ⟨(hv.jobs_valid b hb).dueNoLater (h.due_le ha hac hb hbd), fun hsame => ?_⟩
    refine h.finish_le_of_due_le ha hac hb hbd ?_
    rw [Job.due, Job.due, hsame]
    exact Quantity.le_refl (hv.jobs_valid b hb).due_nonneg

/-- Two jobs that share a deadline and one that has none, with one unit twice as fast as the
other. -/
def sharedDeadline : Pool Binary64 where
  jobs := [⟨0, "none", 100, 0, none, 100⟩,
    ⟨1, "long", 400, 0, some (Quantity.ofNat 9), 400⟩,
    ⟨2, "late", 200, Quantity.ofNat 1, some (Quantity.ofNat 9), 200⟩]
  units := [⟨0, "slow", Quantity.ofNat 100, 0⟩, ⟨1, "fast", Quantity.ofNat 200, 0⟩]

theorem completions_in_finish_order_sharedDeadline :
    sharedDeadline.check = .ok () ∧ ∃ run, deadlineMinMin.allocate sharedDeadline = .ok run ∧
      run.schedule.completions.Pairwise fun c d =>
        ∀ a ∈ sharedDeadline.jobs, a.id = c.job → ∀ b ∈ sharedDeadline.jobs, b.id = d.job →
          a.DueNoLater b ∧ (a.deadline = b.deadline → c.finish ≤ d.finish) := by
  have hcheck : sharedDeadline.check = .ok () :=
    sharedDeadline.check_eq_ok_iff.mpr (by decide +kernel)
  obtain ⟨run, hok, -, horder⟩ := (completions_in_finish_order sharedDeadline hcheck).2
  exact ⟨hcheck, run, hok, horder⟩

end BatchHeuristic
end JobAllocation
