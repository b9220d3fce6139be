import JobAllocation.LocalSearch.Problem
import JobAllocation.Proofs.Realization

/-!
# Complete assignments

A complete assignment binds each job once, to a unit that is there. The search works on placements,
which list the positions of the units in the order of jobs, and a complete assignment is described
by exactly one of them. Rebinding a job moves its entry in the placement and leaves the order of the
assignment alone, so the two are changed in step.
-/
namespace JobAllocation

variable {T : Type}

namespace Assignment

theorem lookup_rebind (job other : JobId) (unit : UnitId) (entries : List (JobId × UnitId)) :
    (rebind job unit entries).lookup other =
      if other = job then some unit else entries.lookup other := by
  induction entries with
  | nil => exact lookup_cons_eq_ite other (job, unit) []
  | cons entry rest ih =>
    rw [rebind]
    by_cases hentry : entry.1 = job
    · rw [if_pos hentry, lookup_cons_eq_ite, lookup_cons_eq_ite, hentry]
      split <;> rfl
    · rw [if_neg hentry, lookup_cons_eq_ite, lookup_cons_eq_ite, ih]
      by_cases hother : other = entry.1
      · rw [if_pos hother, if_pos hother, if_neg fun heq => hentry (hother.symm.trans heq)]
      · rw [if_neg hother, if_neg hother]

theorem unitOf?_assign (a : Assignment) (job other : JobId) (unit : UnitId) :
    (a.assign job unit).unitOf? other = if other = job then some unit else a.unitOf? other :=
  lookup_rebind job other unit a.entries

/-- A job that is bound keeps its place. -/
theorem jobs_assign {a : Assignment} {job : JobId} (h : job ∈ a.jobs) (unit : UnitId) :
    (a.assign job unit).jobs = a.jobs := by
  have key (entries : List (JobId × UnitId)) (h : job ∈ entries.map (·.1)) :
      (rebind job unit entries).map (·.1) = entries.map (·.1) := by
    induction entries with
    | nil => simp at h
    | cons entry rest ih =>
      rw [rebind]
      by_cases hentry : entry.1 = job
      · rw [if_pos hentry, List.map_cons, List.map_cons, hentry]
      · have hrest : job ∈ rest.map (·.1) :=
          (List.mem_cons.mp h).resolve_left fun heq => hentry heq.symm
        rw [if_neg hentry, List.map_cons, List.map_cons, ih hrest]
  exact key a.entries h

theorem mem_entries_assign {a : Assignment} {job : JobId} {unit : UnitId} {entry : JobId × UnitId}
    (h : entry ∈ (a.assign job unit).entries) : entry = (job, unit) ∨ entry ∈ a.entries := by
  have key (entries : List (JobId × UnitId)) (h : entry ∈ rebind job unit entries) :
      entry = (job, unit) ∨ entry ∈ entries := by
    induction entries with
    | nil => exact .inl (List.mem_singleton.mp h)
    | cons first rest ih =>
      rw [rebind] at h
      split at h
      · rcases List.mem_cons.mp h with h | h
        · exact .inl h
        · exact .inr (List.mem_cons_of_mem _ h)
      · rcases List.mem_cons.mp h with h | h
        · exact .inr (h ▸ List.mem_cons_self)
        · exact (ih h).imp_right (List.mem_cons_of_mem _)
  exact key a.entries h

/-- A job that is bound once is bound to the unit of its entry. -/
theorem unitOf?_of_mem {a : Assignment} (hn : a.jobs.Nodup) {entry : JobId × UnitId}
    (he : entry ∈ a.entries) : a.unitOf? entry.1 = some entry.2 := by
  obtain ⟨front, back, hsplit⟩ := List.append_of_mem he
  rw [jobs, hsplit, List.map_append, List.map_cons, List.nodup_append] at hn
  refine List.lookup_eq_some_iff.mpr ⟨front, back, hsplit, fun other hm => ?_⟩
  have hne : other.1 ≠ entry.1 := hn.2.2 _ (List.mem_map_of_mem hm) _ List.mem_cons_self
  simpa using hne.symm

theorem mem_of_unitOf? {a : Assignment} {job : JobId} {unit : UnitId}
    (h : a.unitOf? job = some unit) : (job, unit) ∈ a.entries := by
  obtain ⟨front, back, hsplit, -⟩ := List.lookup_eq_some_iff.mp h
  rw [hsplit]
  exact List.mem_append_right _ List.mem_cons_self

/-- The jobs in their order and the unit of each make up an assignment without repetitions. -/
theorem eq_of_unitOf? {a b : Assignment} (hjobs : a.jobs = b.jobs) (hn : a.jobs.Nodup)
    (h : ∀ job ∈ a.jobs, a.unitOf? job = b.unitOf? job) : a = b := by
  obtain ⟨xs⟩ := a
  obtain ⟨ys⟩ := b
  refine congrArg Assignment.mk ?_
  change xs.map (·.1) = ys.map (·.1) at hjobs
  change (xs.map (·.1)).Nodup at hn
  change ∀ job ∈ xs.map (·.1), xs.lookup job = ys.lookup job at h
  induction xs generalizing ys with
  | nil => exact (List.map_eq_nil_iff.mp hjobs.symm).symm
  | cons x xs ih =>
    obtain ⟨y, ys, rfl⟩ : ∃ y rest, ys = y :: rest :=
      List.exists_cons_of_ne_nil fun hnil => by simp [hnil] at hjobs
    have hfirst : x.1 = y.1 := (List.cons.inj hjobs).1
    rw [List.map_cons, List.nodup_cons] at hn
    have hunit : x.2 = y.2 := by
      have hlookup := h x.1 List.mem_cons_self
      rw [lookup_cons_eq_ite, lookup_cons_eq_ite, if_pos rfl, if_pos hfirst] at hlookup
      exact Option.some.inj hlookup
    refine congrArg₂ List.cons (Prod.ext hfirst hunit)
      (ih ys (List.cons.inj hjobs).2 hn.2 fun job hj => ?_)
    have hne : job ≠ x.1 := fun heq => hn.1 (heq ▸ hj)
    have hlookup := h job (List.mem_cons_of_mem _ hj)
    rwa [lookup_cons_eq_ite, lookup_cons_eq_ite, ← hfirst, if_neg hne, if_neg hne] at hlookup

/-- Binding pairs that agree with an assignment gives the bindings of that assignment to their
jobs. -/
theorem unitOf?_foldl_assign {a : Assignment} {pairs : List (JobId × UnitId)}
    (h : ∀ pair ∈ pairs, a.unitOf? pair.1 = some pair.2) (b : Assignment) (job : JobId) :
    (pairs.foldl (fun b pair => b.assign pair.1 pair.2) b).unitOf? job =
      if job ∈ pairs.map (·.1) then a.unitOf? job else b.unitOf? job := by
  induction pairs generalizing b with
  | nil => simp
  | cons pair rest ih =>
    rw [List.foldl_cons, ih fun p hp => h p (List.mem_cons_of_mem _ hp), unitOf?_assign,
      List.map_cons]
    by_cases hrest : job ∈ rest.map (·.1)
    · rw [if_pos hrest, if_pos (List.mem_cons_of_mem _ hrest)]
    · rw [if_neg hrest]
      by_cases hpair : job = pair.1
      · rw [if_pos hpair, if_pos (hpair ▸ List.mem_cons_self), hpair, h pair List.mem_cons_self]
      · rw [if_neg hpair, if_neg fun hm => (List.mem_cons.mp hm).elim hpair hrest]

theorem jobs_foldl_assign {pairs : List (JobId × UnitId)} {b : Assignment}
    (h : ∀ pair ∈ pairs, pair.1 ∈ b.jobs) :
    (pairs.foldl (fun b pair => b.assign pair.1 pair.2) b).jobs = b.jobs := by
  induction pairs generalizing b with
  | nil => rfl
  | cons pair rest ih =>
    have hjobs := jobs_assign (h pair List.mem_cons_self) pair.2
    rw [List.foldl_cons, ih fun p hp => hjobs ▸ h p (List.mem_cons_of_mem _ hp), hjobs]

/-- Binds each of the jobs once, to one of the units. -/
structure Complete (a : Assignment) (jobs : List (Job T)) (units : List (ExecutionUnit T)) :
    Prop where
  jobs_perm : a.jobs.Perm (jobs.map (·.id))
  units_known : ∀ entry ∈ a.entries, entry.2 ∈ units.map (·.id)

namespace Complete

variable {a : Assignment} {jobs : List (Job T)} {units : List (ExecutionUnit T)}

theorem perm (h : a.Complete jobs units) {jobs' : List (Job T)} {units' : List (ExecutionUnit T)}
    (hj : jobs.Perm jobs') (hu : units.Perm units') : a.Complete jobs' units' where
  jobs_perm := h.jobs_perm.trans (hj.map _)
  units_known entry he := (hu.map _).subset (h.units_known entry he)

theorem mem_jobs (h : a.Complete jobs units) {job : Job T} (hj : job ∈ jobs) : job.id ∈ a.jobs :=
  h.jobs_perm.symm.subset (List.mem_map_of_mem hj)

theorem assign (h : a.Complete jobs units) {job : JobId} (hj : job ∈ a.jobs) {unit : UnitId}
    (hu : unit ∈ units.map (·.id)) : (a.assign job unit).Complete jobs units where
  jobs_perm := by
    rw [jobs_assign hj]
    exact h.jobs_perm
  units_known entry he := by
    rcases mem_entries_assign he with rfl | he
    · exact hu
    · exact h.units_known entry he

theorem exists_unitOf? (h : a.Complete jobs units) {job : Job T} (hj : job ∈ jobs) :
    ∃ unit ∈ units, a.unitOf? job.id = some unit.id := by
  obtain ⟨id, hid⟩ := Option.isSome_iff_exists.mp (unitOf?_isSome_of_mem (h.mem_jobs hj))
  obtain ⟨unit, hu, heq⟩ := List.mem_map.mp (h.units_known _ (mem_of_unitOf? hid))
  exact ⟨unit, hu, heq ▸ hid⟩

end Complete
end Assignment
end JobAllocation
