import JobAllocation.Proofs.RefusedCalls

/-!
# Which assignments are accepted

The execution of an assignment checks it entry by entry while it runs. The search for a better one
checks all entries first and then looks up every job. They find the same assignments to be in order:
those that bind each job once, to a unit that is there. Any other is a fault of the configuration
for both, though they may name different ones.
-/
namespace JobAllocation

variable {T : Type}

/-- Succeeds under the condition, and otherwise fails with a fault of the configuration. -/
structure AcceptsExactly {R : Type} (condition : Prop) (outcome : Except (AllocationError T) R) :
    Prop where
  accepted_iff : (∃ result, outcome = .ok result) ↔ condition
  refused_iff : (∃ e, outcome = .error e ∧ e.kind = .configuration) ↔ ¬ condition

namespace AcceptsExactly

variable {R S : Type} {condition : Prop} {outcome : Except (AllocationError T) R}

theorem intro (accepted : condition → ∃ result, outcome = .ok result)
    (refused : (∃ e, outcome = .error e ∧ e.kind = .configuration) ∨ condition) :
    AcceptsExactly condition outcome := by
  by_cases hc : condition
  · obtain ⟨result, rfl⟩ := accepted hc
    exact ⟨⟨fun _ => hc, fun _ => ⟨result, rfl⟩⟩, ⟨nofun, fun hn => absurd hc hn⟩⟩
  · obtain ⟨e, rfl, hkind⟩ := refused.resolve_right hc
    exact ⟨⟨nofun, fun h => absurd h hc⟩, ⟨fun _ => hc, fun _ => ⟨e, rfl, hkind⟩⟩⟩

theorem map (h : AcceptsExactly condition outcome) (f : R → S) :
    AcceptsExactly condition (outcome.map f) := by
  refine .intro (fun hc => ?_) ?_
  · obtain ⟨result, rfl⟩ := h.accepted_iff.mpr hc
    exact ⟨f result, rfl⟩
  · refine (Classical.em condition).symm.imp_left fun hn => ?_
    obtain ⟨e, rfl, hkind⟩ := h.refused_iff.mpr hn
    exact ⟨e, rfl, hkind⟩

end AcceptsExactly

namespace Execution

variable [Quantity T] {jobs : List (Job T)} {units : List (ExecutionUnit T)}

/-- A run is stopped by a fault of the configuration, or its entries bind distinct jobs, none of
them seen before, to units that are there. -/
theorem refused_or_known (hs : ∀ unit ∈ units, 0 < unit.speed) (seen : List JobId)
    (clocks : Clocks T) (entries : List (JobId × UnitId)) :
    (∃ e, run jobs units seen clocks entries = .error e ∧ e.kind = .configuration) ∨
      (entries.map (·.1)).Nodup ∧ ∀ entry ∈ entries,
        entry.1 ∉ seen ∧ entry.1 ∈ jobs.map (·.id) ∧ entry.2 ∈ units.map (·.id) := by
  induction entries generalizing seen clocks with
  | nil => simp
  | cons entry rest ih =>
    obtain ⟨jobId, unitId⟩ := entry
    by_cases hseen : jobId ∈ seen
    · exact .inl ⟨.jobRepeated jobId, by rw [run, if_pos hseen], rfl⟩
    cases hjob : findJob? jobs jobId with
    | none => exact .inl ⟨.jobUnknown jobId, by simp only [run, if_neg hseen, hjob], rfl⟩
    | some job =>
      cases hunit : findUnit? units unitId with
      | none =>
        exact .inl ⟨.unitUnknown jobId unitId, by simp only [run, if_neg hseen, hjob, hunit], rfl⟩
      | some unit =>
        obtain ⟨hj, hjid⟩ := mem_of_findJob? hjob
        obtain ⟨hu, huid⟩ := mem_of_findUnit? hunit
        obtain ⟨c, later, hrun⟩ : ∃ c later, run jobs units seen clocks ((jobId, unitId) :: rest) =
            (run jobs units (jobId :: seen) later rest).map (c :: ·) := by
          simp only [run, if_neg hseen, hjob, hunit, executionTime_eq (hs unit hu)]
          exact ⟨⟨jobId, unitId, _, _⟩, (unitId, _) :: clocks, rfl⟩
        rw [hrun]
        rcases ih (jobId :: seen) later with ⟨e, he, hkind⟩ | ⟨hn, hrest⟩
        · exact .inl ⟨e, by rw [he]; rfl, hkind⟩
        have hnew : jobId ∉ rest.map (·.1) := fun hm => by
          obtain ⟨entry, he, heq⟩ := List.mem_map.mp hm
          exact (hrest entry he).1 (heq ▸ List.mem_cons_self)
        refine .inr ⟨List.nodup_cons.mpr ⟨hnew, hn⟩,
          List.forall_mem_cons.mpr ⟨⟨hseen, ?_, ?_⟩, ?_⟩⟩
        · exact hjid ▸ List.mem_map_of_mem hj
        · exact huid ▸ List.mem_map_of_mem hu
        · intro entry he
          obtain ⟨hold, hknown⟩ := hrest entry he
          exact ⟨fun hm => hold (List.mem_cons_of_mem _ hm), hknown⟩

theorem acceptsExactly_execute [LawfulQuantity T] {pool : Pool T} (hv : pool.Valid)
    (a : Assignment) :
    AcceptsExactly (a.Complete pool.jobs pool.units) (execute a pool.jobs pool.units) := by
  refine .intro (fun ha => ?_) ?_
  · obtain ⟨plan, hplan, -⟩ := exists_prompt_execute hv ha
    exact ⟨plan, hplan⟩
  · unfold execute
    cases hmissing : pool.jobs.find? fun job => (a.unitOf? job.id).isNone with
    | some job => exact .inl ⟨.jobUnassigned job.id, rfl, rfl⟩
    | none =>
      refine (refused_or_known hv.speed_pos [] [] a.entries).imp_right fun ⟨hn, hknown⟩ => ?_
      refine ⟨(List.perm_ext_iff_of_nodup hn hv.jobs_distinct).mpr fun id => ⟨?_, ?_⟩,
        fun entry he => (hknown entry he).2.2⟩
      · intro hm
        obtain ⟨entry, he, rfl⟩ := List.mem_map.mp hm
        exact (hknown entry he).2.1
      · intro hm
        obtain ⟨job, hj, rfl⟩ := List.mem_map.mp hm
        have hbound := List.find?_eq_none.mp hmissing job hj
        have hsome : a.unitOf? job.id ≠ none := fun h => hbound (by rw [h]; rfl)
        obtain ⟨unit, hunit⟩ := Option.ne_none_iff_exists'.mp hsome
        exact List.mem_map_of_mem (Assignment.mem_of_unitOf? hunit)

end Execution

namespace LocalSearch

variable {p : Problem T} {a : Assignment}

theorem Problem.kind_of_checkEntries {seen : List JobId} {entries : List (JobId × UnitId)}
    {e : AllocationError T} (h : p.checkEntries seen entries = .error e) :
    e.kind = .configuration := by
  induction entries generalizing seen with
  | nil => cases h
  | cons entry rest ih =>
    rw [checkEntries] at h
    split at h
    · cases h
      rfl
    · split at h
      · cases h
        rfl
      · exact ih h

theorem Problem.kind_of_locate {job : Job T} {e : AllocationError T}
    (h : p.locate a job = .error e) : e.kind = .configuration := by
  rw [locate] at h
  split at h
  · cases h
    rfl
  · split at h
    · cases h
      rfl
    · cases h

theorem Problem.kind_of_placementOf {e : AllocationError T} (h : p.placementOf a = .error e) :
    e.kind = .configuration := by
  rw [placementOf] at h
  cases hcheck : p.checkEntries [] a.entries with
  | error first =>
    rw [hcheck] at h
    cases h
    exact kind_of_checkEntries hcheck
  | ok =>
    rw [hcheck] at h
    obtain ⟨job, -, hjob⟩ := exists_of_mapM_eq_error h
    exact kind_of_locate hjob

namespace Poses

variable [Quantity T] {jobs : List (Job T)} {units : List (ExecutionUnit T)}

theorem acceptsExactly_placementOf (hp : Poses jobs units p) (a : Assignment) :
    AcceptsExactly (a.Complete jobs units) (p.placementOf a) := by
  refine .intro (fun ha => ?_) ?_
  · obtain ⟨x, hx⟩ := Problem.exists_describes (hp.complete ha)
    exact ⟨x, Problem.placementOf_eq hp (hp.complete ha) hx⟩
  · cases h : p.placementOf a with
    | error e => exact .inl ⟨e, rfl, Problem.kind_of_placementOf h⟩
    | ok x =>
      have hcomplete := Problem.complete_of_placementOf hp.jobs_distinct h
      exact .inr (hcomplete.perm hp.jobs_perm hp.units_perm)

theorem acceptsExactly_makespan (hp : Poses jobs units p) (a : Assignment) :
    AcceptsExactly (a.Complete jobs units) (makespan a jobs units) := by
  have h : makespan a jobs units = (p.placementOf a).map p.makespan := by
    simp only [makespan, hp.ofInput_eq]
    rfl
  rw [h]
  exact (hp.acceptsExactly_placementOf a).map _

theorem acceptsExactly_optimize (hp : Poses jobs units p) (cap : Option Nat) (a : Assignment) :
    AcceptsExactly (a.Complete jobs units) (optimize cap a jobs units) := by
  have h : optimize cap a jobs units = (p.placementOf a).map fun x =>
      ⟨p.rebind a (p.descend cap 0 x).2.1, p.makespan x, p.makespan (p.descend cap 0 x).2.1,
        (p.descend cap 0 x).1, (p.descend cap 0 x).2.2⟩ := by
    rw [optimize_eq_descend, hp.ofInput_eq]
    rfl
  rw [h]
  exact (hp.acceptsExactly_placementOf a).map _

end Poses
end LocalSearch

/-- Execution, makespan and search accept an assignment under the same condition: it binds each job
of the pool once, to one of its units. All three report any other as a fault of the
configuration. -/
theorem same_assignments_accepted (pool : Pool Binary64) (valid : pool.check = .ok ())
    (a : Assignment) :
    AcceptsExactly (a.Complete pool.jobs pool.units)
        (Execution.execute a pool.jobs pool.units) ∧
      AcceptsExactly (a.Complete pool.jobs pool.units)
        (LocalSearch.makespan a pool.jobs pool.units) ∧
      ∀ cap, AcceptsExactly (a.Complete pool.jobs pool.units)
        (LocalSearch.optimize cap a pool.jobs pool.units) := by
  have hv := Pool.valid_of_check valid
  obtain ⟨p, hp⟩ := LocalSearch.exists_poses hv.jobs_distinct hv.units_distinct hv.speed_pos
  exact ⟨Execution.acceptsExactly_execute hv a, hp.acceptsExactly_makespan a,
    fun cap => hp.acceptsExactly_optimize cap a⟩

/-- Binds the short job twice, the second time to another unit. -/
def boundTwice : Assignment := ⟨[(1, 0), (0, 0), (1, 1)]⟩

/-- The first assignment is accepted by all three, the second one by none. -/
theorem same_assignments_accepted_lopsided :
    LocalSearch.lopsided.check = .ok () ∧
      ((∃ plan, Execution.execute LocalSearch.crowded LocalSearch.lopsided.jobs
          LocalSearch.lopsided.units = .ok plan) ∧
        (∃ value, LocalSearch.makespan LocalSearch.crowded LocalSearch.lopsided.jobs
          LocalSearch.lopsided.units = .ok value) ∧
        ∃ climb, LocalSearch.optimize none LocalSearch.crowded LocalSearch.lopsided.jobs
          LocalSearch.lopsided.units = .ok climb) ∧
      (∃ e, Execution.execute boundTwice LocalSearch.lopsided.jobs
          LocalSearch.lopsided.units = .error e ∧ e.kind = .configuration) ∧
      (∃ e, LocalSearch.makespan boundTwice LocalSearch.lopsided.jobs
          LocalSearch.lopsided.units = .error e ∧ e.kind = .configuration) ∧
      ∃ e, LocalSearch.optimize none boundTwice LocalSearch.lopsided.jobs
          LocalSearch.lopsided.units = .error e ∧ e.kind = .configuration := by
  have hcheck : LocalSearch.lopsided.check = .ok () :=
    LocalSearch.lopsided.check_eq_ok_iff.mpr (by decide +kernel)
  have hcomplete : LocalSearch.crowded.Complete LocalSearch.lopsided.jobs
      LocalSearch.lopsided.units := ⟨by decide, by decide⟩
  have hrepeated : ¬ boundTwice.Complete LocalSearch.lopsided.jobs LocalSearch.lopsided.units :=
    fun h => absurd h.jobs_perm (by decide)
  obtain ⟨hexecute, hmakespan, hoptimize⟩ :=
    same_assignments_accepted LocalSearch.lopsided hcheck LocalSearch.crowded
  obtain ⟨hexecute', hmakespan', hoptimize'⟩ :=
    same_assignments_accepted LocalSearch.lopsided hcheck boundTwice
  exact ⟨hcheck, ⟨hexecute.accepted_iff.mpr hcomplete, hmakespan.accepted_iff.mpr hcomplete,
    (hoptimize none).accepted_iff.mpr hcomplete⟩, hexecute'.refused_iff.mpr hrepeated,
    hmakespan'.refused_iff.mpr hrepeated, (hoptimize' none).refused_iff.mpr hrepeated⟩

end JobAllocation
