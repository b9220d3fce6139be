import JobAllocation.LocalSearch.Climb
import JobAllocation.Proofs.CompleteAssignment

/-!
# Placements and the assignments they describe

The search takes jobs and units in ascending order of their numbers and a placement for an
assignment. Over distinct numbers and positive speeds nothing is lost on the way: each complete
assignment has its placement, a move changes both alike, and an assignment rebound to a placement is
the one that the placement describes.
-/
namespace JobAllocation.LocalSearch

variable {T : Type} [Quantity T]

/-- The problem of some jobs and units that have distinct numbers and can run. -/
structure Poses (jobs : List (Job T)) (units : List (ExecutionUnit T)) (p : Problem T) :
    Prop where
  ofInput_eq : Problem.ofInput jobs units = .ok p
  jobs_eq : p.jobs = jobs.mergeSort (·.id ≤ ·.id)
  units_eq : p.units = units.mergeSort (·.id ≤ ·.id)
  jobs_distinct : (p.jobs.map (·.id)).Nodup
  units_distinct : (p.units.map (·.id)).Nodup
  speed_pos : ∀ unit ∈ p.units, 0 < unit.speed

theorem exists_poses {jobs : List (Job T)} {units : List (ExecutionUnit T)}
    (hj : (jobs.map (·.id)).Nodup) (hu : (units.map (·.id)).Nodup)
    (hs : ∀ unit ∈ units, 0 < unit.speed) : ∃ p, Poses jobs units p := by
  have hjobs := List.mergeSort_perm jobs (·.id ≤ ·.id)
  have hunits := List.mergeSort_perm units (·.id ≤ ·.id)
  have hspeed : ∀ unit ∈ units.mergeSort (·.id ≤ ·.id), 0 < unit.speed :=
    fun unit hm => hs unit (hunits.subset hm)
  refine ⟨⟨jobs.mergeSort (·.id ≤ ·.id), units.mergeSort (·.id ≤ ·.id)⟩, ?_, rfl, rfl,
    (hjobs.map _).nodup_iff.mpr hj, (hunits.map _).nodup_iff.mpr hu, hspeed⟩
  have hrun : (jobs.mergeSort (·.id ≤ ·.id)).forM (fun job =>
      (units.mergeSort (·.id ≤ ·.id)).forM fun unit => discard (executionTime job.length unit)) =
        .ok () := by
    refine forM_eq_ok fun job _ => forM_eq_ok fun unit hm => ?_
    rw [executionTime_eq (hspeed unit hm)]
    rfl
  exact congrArg (fun checked => checked >>= fun _ => pure _) hrun

/-- Jobs and units in ascending order are the problem themselves. -/
theorem poses_of_sorted {jobs : List (Job T)} {units : List (ExecutionUnit T)}
    (hj : (jobs.map (·.id)).Pairwise (· < ·)) (hu : (units.map (·.id)).Pairwise (· < ·))
    (hs : ∀ unit ∈ units, 0 < unit.speed) : Poses jobs units ⟨jobs, units⟩ := by
  have hle {a b : Nat} (h : a < b) : decide (a ≤ b) = true := decide_eq_true (Nat.le_of_lt h)
  have hjobs : jobs.mergeSort (·.id ≤ ·.id) = jobs :=
    List.mergeSort_of_pairwise ((List.pairwise_map.mp hj).imp hle)
  have hunits : units.mergeSort (·.id ≤ ·.id) = units :=
    List.mergeSort_of_pairwise ((List.pairwise_map.mp hu).imp hle)
  obtain ⟨p, hp⟩ := exists_poses (hj.imp Nat.ne_of_lt) (hu.imp Nat.ne_of_lt) hs
  obtain ⟨sorted, ordered⟩ := p
  obtain rfl : sorted = jobs := hp.jobs_eq.trans hjobs
  obtain rfl : ordered = units := hp.units_eq.trans hunits
  exact hp

namespace Poses

variable {jobs : List (Job T)} {units : List (ExecutionUnit T)} {p : Problem T}

theorem jobs_perm (h : Poses jobs units p) : p.jobs.Perm jobs := by
  rw [h.jobs_eq]
  exact List.mergeSort_perm jobs _

theorem units_perm (h : Poses jobs units p) : p.units.Perm units := by
  rw [h.units_eq]
  exact List.mergeSort_perm units _

theorem complete (h : Poses jobs units p) {a : Assignment} (ha : a.Complete jobs units) :
    a.Complete p.jobs p.units := ha.perm h.jobs_perm.symm h.units_perm.symm

theorem unitId_injective (h : Poses jobs units p) : Function.Injective p.unitId := by
  intro u v heq
  have hn : p.units.Nodup := .of_map _ h.units_distinct
  have hget : p.units.get u = p.units.get v :=
    List.inj_on_of_nodup_map h.units_distinct (List.get_mem _ _) (List.get_mem _ _) heq
  exact hn.get_inj_iff.mp hget

theorem position?_unitId (h : Poses jobs units p) (u : p.Position) :
    p.position? (p.unitId u) = some u :=
  findRev?_eq_of_mem ((List.nodup_finRange _).map h.unitId_injective) (List.mem_finRange u)

omit [Quantity T] in
theorem exists_unitId {unit : ExecutionUnit T} (hu : unit ∈ p.units) :
    ∃ u : p.Position, p.unitId u = unit.id := by
  obtain ⟨u, rfl⟩ := List.mem_iff_get.mp hu
  exact ⟨u, rfl⟩

omit [Quantity T] in
theorem unitId_mem (u : p.Position) : p.unitId u ∈ p.units.map (·.id) :=
  List.mem_map_of_mem (List.get_mem _ _)

theorem job_unique (h : Poses jobs units p) {i k : Nat} {a b : Job T}
    (ha : p.jobs[i]? = some a) (hb : p.jobs[k]? = some b) (hid : a.id = b.id) : i = k :=
  index_eq_of_key h.jobs_distinct ha hb hid

end Poses

namespace Problem

/-- The placement lists the units that the assignment gives to the jobs. -/
structure Describes (p : Problem T) (x : p.Placement) (a : Assignment) : Prop where
  length_eq : x.length = p.jobs.length
  bound : ∀ (i : Nat) (job : Job T) (u : p.Position), p.jobs[i]? = some job → x[i]? = some u →
    a.unitOf? job.id = some (p.unitId u)

omit [Quantity T] in
theorem describes_iff_forall₂ {p : Problem T} {x : p.Placement} {a : Assignment} :
    p.Describes x a ↔
      List.Forall₂ (fun job u => a.unitOf? job.id = some (p.unitId u)) p.jobs x := by
  rw [List.forall₂_iff_get]
  constructor
  · intro h
    refine ⟨h.length_eq.symm, fun i hi hx => ?_⟩
    exact h.bound i _ _ (List.getElem?_eq_getElem hi) (List.getElem?_eq_getElem hx)
  · rintro ⟨hlen, h⟩
    refine ⟨hlen.symm, fun i job u hjob hu => ?_⟩
    obtain ⟨hi, rfl⟩ := List.getElem?_eq_some_iff.mp hjob
    obtain ⟨hx, rfl⟩ := List.getElem?_eq_some_iff.mp hu
    exact h i hi hx

variable {jobs : List (Job T)} {units : List (ExecutionUnit T)} {p : Problem T}
  {x : p.Placement} {a : Assignment}

omit [Quantity T] in
theorem exists_describes (ha : a.Complete p.jobs p.units) : ∃ x, p.Describes x a := by
  have hbound : ∀ job ∈ p.jobs, ∃ u, a.unitOf? job.id = some (p.unitId u) := by
    intro job hj
    obtain ⟨unit, hu, hunit⟩ := ha.exists_unitOf? hj
    obtain ⟨u, hid⟩ := Poses.exists_unitId hu
    exact ⟨u, hid ▸ hunit⟩
  obtain ⟨x, hx⟩ := exists_forall₂ hbound
  exact ⟨x, describes_iff_forall₂.mpr hx⟩

omit [Quantity T] in
theorem checkEntries_eq_ok {seen : List JobId} {entries : List (JobId × UnitId)}
    (hknown : ∀ entry ∈ entries, entry.1 ∈ p.jobs.map (·.id))
    (hn : (entries.map (·.1)).Nodup) (hseen : ∀ entry ∈ entries, entry.1 ∉ seen) :
    p.checkEntries seen entries = .ok () := by
  induction entries generalizing seen with
  | nil => rfl
  | cons entry rest ih =>
    have hany : p.jobs.any (·.id == entry.1) = true := by
      obtain ⟨job, hj, hid⟩ := List.mem_map.mp (hknown entry List.mem_cons_self)
      exact List.any_eq_true.mpr ⟨job, hj, beq_iff_eq.mpr hid⟩
    have hrest : ∀ other ∈ rest, other.1 ∉ entry.1 :: seen := notMem_seen hn hseen
    rw [checkEntries, if_neg (not_not.mpr hany), if_neg (hseen entry List.mem_cons_self)]
    exact ih (fun other hm => hknown other (List.mem_cons_of_mem _ hm))
      (List.nodup_cons.mp hn).2 hrest

theorem placementOf_eq (hp : Poses jobs units p) (ha : a.Complete p.jobs p.units)
    (hx : p.Describes x a) : p.placementOf a = .ok x := by
  have hn : (a.entries.map (·.1)).Nodup := ha.jobs_perm.nodup_iff.mpr hp.jobs_distinct
  have hcheck : p.checkEntries [] a.entries = .ok () :=
    checkEntries_eq_ok (fun entry he => ha.jobs_perm.subset (List.mem_map_of_mem he)) hn
      (by simp)
  have hlocate : p.jobs.mapM (p.locate a) = .ok x := by
    refine mapM_eq_ok_iff.mpr ((describes_iff_forall₂.mp hx).imp fun job u hu => ?_)
    rw [locate, hu]
    simp only [hp.position?_unitId]
  rw [placementOf, hcheck]
  exact hlocate

/-- Of the input and an assignment that a placement describes, the makespan is that of the
placement. -/
theorem makespan_eq (hp : Poses jobs units p) (ha : a.Complete p.jobs p.units)
    (hx : p.Describes x a) : LocalSearch.makespan a jobs units = .ok (p.makespan x) := by
  simp only [LocalSearch.makespan, hp.ofInput_eq, placementOf_eq hp ha hx, bind, Except.bind, pure,
    Except.pure]

/-- Rebinding a job moves its entry in the placement. -/
theorem Describes.assign (hx : p.Describes x a) (hp : Poses jobs units p) {i : Nat} {job : Job T}
    (hjob : p.jobs[i]? = some job) (u : p.Position) :
    p.Describes (x.set i u) (a.assign job.id (p.unitId u)) where
  length_eq := by rw [List.length_set, hx.length_eq]
  bound k other v hother hv := by
    rw [Assignment.unitOf?_assign]
    rw [List.getElem?_set] at hv
    by_cases hik : i = k
    · subst hik
      obtain rfl := Option.some.inj (hother.symm.trans hjob)
      have hlt : i < x.length := hx.length_eq ▸ (List.getElem?_eq_some_iff.mp hjob).1
      rw [if_pos rfl, if_pos hlt] at hv
      rw [if_pos rfl, Option.some.inj hv]
    · rw [if_neg hik] at hv
      rw [if_neg fun hid => hik (hp.job_unique hother hjob hid).symm]
      exact hx.bound k other v hother hv

omit [Quantity T] in
/-- Rebinding the jobs of an assignment to a placement gives the assignment that the placement
describes, if both list the jobs in one order. -/
theorem rebind_eq (ha : a.Complete p.jobs p.units) (hx : p.Describes x a)
    (hn : (p.jobs.map (·.id)).Nodup) {b : Assignment} (hb : b.jobs = a.jobs) :
    p.rebind b x = a := by
  have hpairs : ∀ pair ∈ (p.jobs.zip x).map (fun placed => (placed.1.id, p.unitId placed.2)),
      a.unitOf? pair.1 = some pair.2 := by
    intro pair hm
    obtain ⟨⟨job, u⟩, hzip, rfl⟩ := List.mem_map.mp hm
    exact List.forall₂_iff_zip.mp (describes_iff_forall₂.mp hx) |>.2 hzip
  have hkeys : ((p.jobs.zip x).map (fun placed => (placed.1.id, p.unitId placed.2))).map (·.1) =
      p.jobs.map (·.id) := by
    rw [List.map_map]
    change (p.jobs.zip x).map ((·.id) ∘ Prod.fst) = _
    rw [← List.map_map, List.map_fst_zip (Nat.le_of_eq hx.length_eq.symm)]
  have hfold : p.rebind b x =
      ((p.jobs.zip x).map fun placed => (placed.1.id, p.unitId placed.2)).foldl
        (fun b pair => b.assign pair.1 pair.2) b := by
    rw [List.foldl_map]
    rfl
  have hjobs : (p.rebind b x).jobs = a.jobs := by
    rw [hfold, Assignment.jobs_foldl_assign, hb]
    intro pair hm
    rw [hb]
    exact ha.jobs_perm.symm.subset (hkeys ▸ List.mem_map_of_mem hm)
  refine Assignment.eq_of_unitOf? hjobs (hjobs ▸ ha.jobs_perm.nodup_iff.mpr hn) fun job hj => ?_
  rw [hfold, Assignment.unitOf?_foldl_assign hpairs, hkeys,
    if_pos (ha.jobs_perm.subset (hjobs ▸ hj))]

theorem getD_loads (p : Problem T) (x : p.Placement) (u : p.Position) :
    (p.loads x).getD u.val 0 = p.load x u := by
  rw [loads, List.getD_eq_getElem?_getD, List.getElem?_map,
    List.getElem?_eq_getElem (by simp), List.getElem_finRange]
  rfl

/-- What a neighbour of a placement moves, and what it is scored at. -/
structure Neighbour.Moves {p : Problem T} (n : p.Neighbour) (x : p.Placement) : Prop where
  job_at : p.jobs[n.index]? = some n.job
  source_at : x[n.index]? = some n.source
  target_ne : n.target ≠ n.source
  score_eq : n.score = makespanAfter (topThree (p.loads x))
    (n.source.val, p.load x n.source - p.duration n.job n.source)
    (n.target.val, p.load x n.target + p.duration n.job n.target)

theorem mem_neighbours_iff {n : p.Neighbour} : n ∈ p.neighbours x ↔ n.Moves x := by
  simp only [neighbours, neighboursAt, List.mem_flatMap, List.mem_map, List.mem_filter,
    List.mem_finRange, true_and, Prod.exists, getD_loads, decide_eq_true_eq]
  constructor
  · rintro ⟨job, source, index, hzip, target, hne, rfl⟩
    have hat := List.mem_zipIdx_iff_getElem?.mp hzip
    obtain ⟨hjob, hsource⟩ := List.getElem?_zip_eq_some.mp hat
    exact ⟨hjob, hsource, hne, rfl⟩
  · rintro ⟨hjob, hsource, hne, hscore⟩
    refine ⟨n.job, n.source, n.index, ?_, n.target, hne, ?_⟩
    · exact List.mem_zipIdx_iff_getElem?.mpr (List.getElem?_zip_eq_some.mpr ⟨hjob, hsource⟩)
    · rw [← hscore]

/-- Every job can be moved to every other unit. -/
theorem exists_moves {i : Nat} {job : Job T} {source target : p.Position}
    (hjob : p.jobs[i]? = some job) (hsource : x[i]? = some source) (hne : target ≠ source) :
    ∃ score, Neighbour.Moves ⟨i, job, source, target, score⟩ x :=
  ⟨makespanAfter (topThree (p.loads x)) (source.val, p.load x source - p.duration job source)
    (target.val, p.load x target + p.duration job target), hjob, hsource, hne, rfl⟩

end Problem
end JobAllocation.LocalSearch
