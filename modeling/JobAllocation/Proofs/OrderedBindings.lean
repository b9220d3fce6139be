import JobAllocation.Proofs.CompleteAssignment

/-!
# Assignments are ordered maps

The entries of an assignment are a list of pairs, in which a job may be bound more than once if the
list was read from outside. Binding a job overwrites its first entry where that stands, or adds one
at the end. Whatever is bound one after the other, jobs stand in the order in which they were bound
first and at the unit to which they were bound last.
-/
namespace JobAllocation.Assignment

variable {a b : Assignment} {job other : JobId} {unit target : UnitId}

theorem entries_assign_of_mem (h : job ∈ a.jobs) (unit : UnitId) :
    (a.assign job unit).entries = a.entries.set (a.jobs.idxOf job) (job, unit) := by
  have key (entries : List (JobId × UnitId)) (h : job ∈ entries.map (·.1)) :
      rebind job unit entries = entries.set ((entries.map (·.1)).idxOf job) (job, unit) := by
    induction entries with
    | nil => cases h
    | cons entry rest ih =>
      rw [rebind, List.map_cons]
      by_cases hentry : entry.1 = job
      · rw [if_pos hentry, hentry, List.idxOf_cons_self, List.set_cons_zero]
      · have hrest := (List.mem_cons.mp h).resolve_left (Ne.symm hentry)
        rw [if_neg hentry, List.idxOf_cons_ne _ hentry, List.set_cons_succ, ih hrest]
  exact key a.entries h

theorem entries_assign_of_notMem (h : job ∉ a.jobs) (unit : UnitId) :
    (a.assign job unit).entries = a.entries ++ [(job, unit)] := rebind_of_notMem h

theorem jobs_assign_of_notMem (h : job ∉ a.jobs) (unit : UnitId) :
    (a.assign job unit).jobs = a.jobs ++ [job] := by
  rw [jobs, entries_assign_of_notMem h, List.map_append]
  rfl

/-- What has become of an assignment after a job was bound to a unit. -/
structure Binds (a : Assignment) (job : JobId) (unit : UnitId) (b : Assignment) : Prop where
  bound : b.unitOf? job = some unit
  others : ∀ other, other ≠ job → b.unitOf? other = a.unitOf? other
  order_kept : a.jobs <+: b.jobs
  in_place : job ∈ a.jobs → b.entries = a.entries.set (a.jobs.idxOf job) (job, unit)
  at_end : job ∉ a.jobs → b.entries = a.entries ++ [(job, unit)]

theorem binds_assign (a : Assignment) (job : JobId) (unit : UnitId) :
    Binds a job unit (a.assign job unit) where
  bound := by rw [unitOf?_assign, if_pos rfl]
  others other hother := by rw [unitOf?_assign, if_neg hother]
  order_kept := by
    by_cases h : job ∈ a.jobs
    · exact ⟨[], by rw [jobs_assign h, List.append_nil]⟩
    · exact ⟨[job], (jobs_assign_of_notMem h unit).symm⟩
  in_place h := entries_assign_of_mem h unit
  at_end h := entries_assign_of_notMem h unit

/-- Jobs that are both bound have entries of their own, so it does not matter which is rebound
first. -/
theorem assign_assign_comm (hne : job ≠ other) (hj : job ∈ a.jobs) (ho : other ∈ a.jobs) :
    (a.assign job unit).assign other target = (a.assign other target).assign job unit := by
  have hj' : job ∈ (a.assign other target).jobs := by rwa [jobs_assign ho]
  have ho' : other ∈ (a.assign job unit).jobs := by rwa [jobs_assign hj]
  have hplaces : a.jobs.idxOf job ≠ a.jobs.idxOf other := fun h => hne ((List.idxOf_inj hj).mp h)
  refine congrArg Assignment.mk ?_
  change ((a.assign job unit).assign other target).entries =
    ((a.assign other target).assign job unit).entries
  rw [entries_assign_of_mem ho', entries_assign_of_mem hj', jobs_assign hj, jobs_assign ho,
    entries_assign_of_mem hj, entries_assign_of_mem ho, List.set_comm _ _ hplaces]

/-- Binds each of the pairs in turn. -/
def assignAll (a : Assignment) (pairs : List (JobId × UnitId)) : Assignment :=
  pairs.foldl (fun a pair => a.assign pair.1 pair.2) a

/-- Jobs that were bound before keep their places. The others follow in the order in which they are
bound first. -/
theorem jobs_assignAll (a : Assignment) (pairs : List (JobId × UnitId)) :
    (a.assignAll pairs).jobs = a.jobs ++ ((pairs.map (·.1)).filter (· ∉ a.jobs)).eraseDups := by
  induction pairs generalizing a with
  | nil => exact (List.append_nil _).symm
  | cons pair rest ih =>
    rw [assignAll, List.foldl_cons, ← assignAll, ih, List.map_cons]
    by_cases h : pair.1 ∈ a.jobs
    · rw [jobs_assign h, List.filter_cons_of_neg (by simpa using h)]
    · have hrest : (rest.map (·.1)).filter (· ∉ a.jobs ++ [pair.1]) =
          ((rest.map (·.1)).filter (· ∉ a.jobs)).filter fun job => !job == pair.1 := by
        rw [List.filter_filter]
        refine List.filter_congr fun job _ => ?_
        rw [Bool.eq_iff_iff]
        simp [and_comm]
      rw [jobs_assign_of_notMem h, hrest, List.filter_cons_of_pos (by simpa using h),
        List.eraseDups_cons, List.append_assoc, List.singleton_append]

/-- The last binding of a job stands. -/
theorem unitOf?_assignAll (a : Assignment) (pairs : List (JobId × UnitId)) (job : JobId) :
    (a.assignAll pairs).unitOf? job = (pairs.reverse.lookup job).or (a.unitOf? job) := by
  induction pairs generalizing a with
  | nil => rfl
  | cons pair rest ih =>
    rw [assignAll, List.foldl_cons, ← assignAll, ih, unitOf?_assign, List.reverse_cons,
      List.lookup_append, Option.or_assoc, lookup_cons_eq_ite]
    split <;> rfl

/-- A sequence of bindings repeats no job that was not repeated before. -/
theorem nodup_jobs_assignAll (hn : a.jobs.Nodup) (pairs : List (JobId × UnitId)) :
    (a.assignAll pairs).jobs.Nodup := by
  rw [jobs_assignAll]
  refine List.nodup_append.mpr ⟨hn, nodup_eraseDups _, ?_⟩
  rintro job hj _ hnew rfl
  rw [List.mem_eraseDups, List.mem_filter] at hnew
  simp [hj] at hnew

/-- What has become of an assignment after each of the pairs was bound in turn. -/
structure BindsAll (a : Assignment) (pairs : List (JobId × UnitId)) (b : Assignment) : Prop where
  order : b.jobs = a.jobs ++ ((pairs.map (·.1)).filter (· ∉ a.jobs)).eraseDups
  units : ∀ job, b.unitOf? job = (pairs.reverse.lookup job).or (a.unitOf? job)
  distinct : a.jobs.Nodup → b.jobs.Nodup

theorem bindsAll_assignAll (a : Assignment) (pairs : List (JobId × UnitId)) :
    BindsAll a pairs (a.assignAll pairs) where
  order := jobs_assignAll a pairs
  units := unitOf?_assignAll a pairs
  distinct hn := nodup_jobs_assignAll hn pairs

/-- Each job of the pairs stands once, where it is bound first and at the unit to which it is bound
last. -/
structure Collects (pairs : List (JobId × UnitId)) (a : Assignment) : Prop where
  distinct : a.jobs.Nodup
  order : a.jobs = (pairs.map (·.1)).eraseDups
  last_binding : ∀ entry, entry ∈ a.entries ↔ pairs.reverse.lookup entry.1 = some entry.2

theorem collects_ofPairs (pairs : List (JobId × UnitId)) : Collects pairs (ofPairs pairs) := by
  have hbinds := bindsAll_assignAll empty pairs
  have hdistinct : (ofPairs pairs).jobs.Nodup := hbinds.distinct .nil
  refine ⟨hdistinct, ?_, fun entry => ?_⟩
  · have hall : (pairs.map (·.1)).filter (· ∉ empty.jobs) = pairs.map (·.1) :=
      List.filter_eq_self.mpr fun job _ => by simp [jobs, empty]
    exact hbinds.order.trans (congrArg List.eraseDups hall)
  · have hunit : (ofPairs pairs).unitOf? entry.1 = _ := hbinds.units entry.1
    rw [show empty.unitOf? entry.1 = none from rfl, Option.or_none] at hunit
    rw [← hunit]
    exact ⟨unitOf?_of_mem hdistinct, mem_of_unitOf?⟩

theorem ofPairs_entries_eq_iff (a : Assignment) : ofPairs a.entries = a ↔ a.jobs.Nodup := by
  refine ⟨fun h => h ▸ (collects_ofPairs a.entries).distinct, fun h => ?_⟩
  exact congrArg mk (entries_ofPairs h)

/-- An assignment is an ordered map. One made of pairs has each of their jobs once, in the order of
their first bindings and at the units of their last ones, and binding further pairs keeps it so.
Binding one job leaves the units of all others and the order of the entries alone and adds at most
one entry, at the end. Making an assignment of its own entries gives it back exactly if it repeats
no job, and bound jobs can be rebound in either order. -/
theorem bindings_ordered :
    (∀ pairs, Collects pairs (ofPairs pairs)) ∧
      (∀ a pairs, BindsAll a pairs (a.assignAll pairs)) ∧
      (∀ a job unit, Binds a job unit (a.assign job unit)) ∧
      (∀ a, ofPairs a.entries = a ↔ a.jobs.Nodup) ∧
      ∀ (a : Assignment) (job other : JobId) (unit target : UnitId),
        job ≠ other → job ∈ a.jobs → other ∈ a.jobs →
          (a.assign job unit).assign other target = (a.assign other target).assign job unit :=
  ⟨collects_ofPairs, bindsAll_assignAll, binds_assign, ofPairs_entries_eq_iff,
    fun _ _ _ _ _ => assign_assign_comm⟩

/-- Read from outside, with job 3 bound twice. -/
def boundTwice : Assignment := ⟨[(3, 0), (1, 1), (3, 2)]⟩

theorem bindings_ordered_boundTwice :
    boundTwice.jobs = [3, 1, 3] ∧ ofPairs boundTwice.entries ≠ boundTwice ∧
      Collects boundTwice.entries (ofPairs boundTwice.entries) ∧
      (ofPairs boundTwice.entries).entries = [(3, 2), (1, 1)] ∧
      ((boundTwice.assign 3 7).assign 1 8).entries = [(3, 7), (1, 8), (3, 2)] ∧
      (boundTwice.assign 3 7).assign 1 8 = (boundTwice.assign 1 8).assign 3 7 := by
  obtain ⟨hcollects, -, -, hagain, hcomm⟩ := bindings_ordered
  exact ⟨rfl, fun h => absurd ((hagain boundTwice).mp h) (by decide), hcollects _, by decide,
    by decide, hcomm boundTwice 3 1 7 8 (by decide) (by decide) (by decide)⟩

end JobAllocation.Assignment
