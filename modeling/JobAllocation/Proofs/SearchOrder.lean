import JobAllocation.Proofs.Choices
import JobAllocation.Proofs.MoveLog
import JobAllocation.Proofs.RefusedCalls

/-!
# The search takes its input by number

The search sorts jobs and units before it does anything else, so the order of its input is lost at
once. The order of the entries of an assignment plays no part in it either. It is the order of
execution, and comes back with the assignment that is returned.
-/
namespace JobAllocation

variable {T : Type}

namespace Assignment

variable {a b : Assignment}

theorem unitOf?_eq_some_iff (hn : a.jobs.Nodup) {job : JobId} {unit : UnitId} :
    a.unitOf? job = some unit ↔ (job, unit) ∈ a.entries :=
  ⟨mem_of_unitOf?, fun h => unitOf?_of_mem hn h⟩

theorem unitOf?_eq_of_perm (hn : a.jobs.Nodup) (hp : a.entries.Perm b.entries) (job : JobId) :
    a.unitOf? job = b.unitOf? job := by
  have hb : b.jobs.Nodup := (hp.map _).nodup_iff.mp hn
  ext unit
  rw [unitOf?_eq_some_iff hn, unitOf?_eq_some_iff hb]
  exact hp.mem_iff

/-- Assignments that bind the same jobs alike list the same entries. -/
theorem entries_perm (hn : a.jobs.Nodup) (hp : a.jobs.Perm b.jobs)
    (h : ∀ job ∈ a.jobs, a.unitOf? job = b.unitOf? job) : a.entries.Perm b.entries := by
  have hb : b.jobs.Nodup := hp.nodup_iff.mp hn
  refine (List.perm_ext_iff_of_nodup (.of_map _ hn) (.of_map _ hb)).mpr fun entry => ?_
  rw [← unitOf?_eq_some_iff hn, ← unitOf?_eq_some_iff hb]
  constructor
  · intro hm
    rw [← h _ (List.mem_map_of_mem (mem_of_unitOf? hm))]
    exact hm
  · intro hm
    rw [h _ (hp.symm.subset (List.mem_map_of_mem (mem_of_unitOf? hm)))]
    exact hm

theorem Complete.of_perm_entries {jobs : List (Job T)} {units : List (ExecutionUnit T)}
    (h : a.Complete jobs units) (hp : a.entries.Perm b.entries) : b.Complete jobs units where
  jobs_perm := (hp.symm.map _).trans h.jobs_perm
  units_known entry he := h.units_known entry (hp.symm.subset he)

end Assignment

namespace LocalSearch

namespace Problem

variable {p : Problem T} {x : p.Placement} {a b : Assignment}

theorem Describes.congr (h : p.Describes x a) (hab : ∀ job, a.unitOf? job = b.unitOf? job) :
    p.Describes x b where
  length_eq := h.length_eq
  bound i job u hjob hu := hab job.id ▸ h.bound i job u hjob hu

theorem Describes.unitOf?_eq (ha : p.Describes x a) (hb : p.Describes x b) {job : JobId}
    (hj : job ∈ p.jobs.map (·.id)) : a.unitOf? job = b.unitOf? job := by
  obtain ⟨found, hfound, rfl⟩ := List.mem_map.mp hj
  obtain ⟨i, hi⟩ := List.getElem?_of_mem hfound
  have hx : i < x.length := ha.length_eq ▸ (List.getElem?_eq_some_iff.mp hi).1
  rw [ha.bound i found _ hi (List.getElem?_eq_getElem hx),
    hb.bound i found _ hi (List.getElem?_eq_getElem hx)]

end Problem

variable [Quantity T] {jobs jobs' : List (Job T)} {units units' : List (ExecutionUnit T)}

theorem Problem.ofInput_eq_of_perm (hj : (jobs.map (·.id)).Nodup)
    (hu : (units.map (·.id)).Nodup) (hjobs : jobs.Perm jobs') (hunits : units.Perm units') :
    ofInput jobs units = ofInput jobs' units' := by
  rw [ofInput, ofInput, mergeSort_eq_of_perm Job.id hj hjobs,
    mergeSort_eq_of_perm ExecutionUnit.id hu hunits]

theorem makespan_eq_of_perm (hj : (jobs.map (·.id)).Nodup) (hu : (units.map (·.id)).Nodup)
    (hjobs : jobs.Perm jobs') (hunits : units.Perm units') (a : Assignment) :
    makespan a jobs units = makespan a jobs' units' := by
  rw [makespan, makespan, Problem.ofInput_eq_of_perm hj hu hjobs hunits]

theorem optimize_eq_of_perm (hj : (jobs.map (·.id)).Nodup) (hu : (units.map (·.id)).Nodup)
    (hjobs : jobs.Perm jobs') (hunits : units.Perm units') (cap : Option Nat) (a : Assignment) :
    optimize cap a jobs units = optimize cap a jobs' units' := by
  rw [optimize, optimize, Problem.ofInput_eq_of_perm hj hu hjobs hunits]

/-- Two searches that do the same and list their assignments in different orders. -/
structure Climb.Reordered (climb other : Climb T) : Prop where
  moves_eq : other.moves = climb.moves
  initialMakespan_eq : other.initialMakespan = climb.initialMakespan
  makespan_eq : other.makespan = climb.makespan
  converged_eq : other.converged = climb.converged
  entries_perm : climb.assignment.entries.Perm other.assignment.entries

/-- A search from a complete assignment does the same from the same entries in another order. -/
theorem Poses.exists_reordered {p : Problem T} (hp : Poses jobs units p) {a b : Assignment}
    (ha : a.Complete p.jobs p.units) (hab : a.entries.Perm b.entries) (cap : Option Nat) :
    ∃ climb other, optimize cap a jobs units = .ok climb ∧ optimize cap b jobs units = .ok other ∧
      climb.Reordered other := by
  have hn : a.jobs.Nodup := ha.jobs_perm.nodup_iff.mpr hp.jobs_distinct
  have hb := ha.of_perm_entries hab
  obtain ⟨x, hx⟩ := Problem.exists_describes ha
  have hy := hx.congr (Assignment.unitOf?_eq_of_perm hn hab)
  obtain ⟨last, hlast, hdescribes, hcomplete, hjobs, -⟩ := Problem.exists_replay hp ha hx cap
  obtain ⟨other, hother, hagain, -, hjobs', -⟩ := Problem.exists_replay hp hb hy cap
  refine ⟨_, _, optimize_eq hp ha hx cap, optimize_eq hp hb hy cap, rfl, rfl, rfl, rfl, ?_⟩
  -- Both assignments are described by the placement at which the search ends.
  rw [hlast, hother]
  refine Assignment.entries_perm (hjobs ▸ hn) ?_ fun job hj => ?_
  · rw [hjobs, hjobs']
    exact hab.map _
  · exact hdescribes.unitOf?_eq hagain (hcomplete.jobs_perm.subset hj)

end LocalSearch
end JobAllocation
