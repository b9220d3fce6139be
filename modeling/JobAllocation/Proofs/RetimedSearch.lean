import JobAllocation.HillClimbing
import JobAllocation.Proofs.MoveLog
import JobAllocation.Proofs.Retiming

/-!
# The search under a change of times

The search reads numbers, lengths and speeds only. A problem with changed jobs and units has the
same placements, up to the type of a position, and they have the same makespans, so the search makes
the same moves. Times come in when an assignment is carried out, and there they move along.
-/
namespace JobAllocation

variable {T : Type} [Quantity T] (φ : Retiming T)

namespace LocalSearch.Problem

/-- The problem of changed jobs and units. -/
def retime (p : Problem T) : Problem T := ⟨p.jobs.map φ.job, p.units.map φ.unit⟩

/-- The position of the same unit in the changed problem. -/
def position {p : Problem T} (u : p.Position) : (p.retime φ).Position :=
  Fin.cast (List.length_map _).symm u

variable {p : Problem T}

theorem position_inj {u v : p.Position} : position φ u = position φ v ↔ u = v :=
  ⟨fun h => Fin.ext (Fin.mk.inj h), congrArg (position φ)⟩

theorem finRange_retime (p : Problem T) :
    List.finRange (p.retime φ).units.length =
      (List.finRange p.units.length).map (position φ) := by
  have key {n m : Nat} (h : n = m) : List.finRange m = (List.finRange n).map (Fin.cast h) := by
    subst h
    exact (List.map_id _).symm
  exact key (List.length_map _).symm

theorem get_retime (u : p.Position) :
    (p.retime φ).units.get (position φ u) = φ.unit (p.units.get u) :=
  List.getElem_map φ.unit

theorem unitId_retime (u : p.Position) : (p.retime φ).unitId (position φ u) = p.unitId u := by
  rw [unitId, get_retime, φ.unit_id, unitId]

theorem position?_retime (p : Problem T) (id : UnitId) :
    (p.retime φ).position? id = (p.position? id).map (position φ) := by
  rw [position?, position?, List.findRev?_eq_find?_reverse, List.findRev?_eq_find?_reverse,
    finRange_retime, ← List.map_reverse, List.find?_map]
  simp only [Function.comp_def, unitId_retime]

theorem checkEntries_retime (p : Problem T) (seen : List JobId)
    (entries : List (JobId × UnitId)) :
    (p.retime φ).checkEntries seen entries = p.checkEntries seen entries := by
  induction entries generalizing seen with
  | nil => rfl
  | cons entry rest ih =>
    have hany : (p.retime φ).jobs.any (·.id == entry.1) = p.jobs.any (·.id == entry.1) := by
      rw [retime, List.any_map]
      simp only [Function.comp_def, φ.job_id]
    rw [checkEntries, checkEntries, hany, ih]

theorem locate_retime (p : Problem T) (a : Assignment) (job : Job T) :
    (p.retime φ).locate a (φ.job job) = (p.locate a job).map (position φ) := by
  unfold locate
  rw [φ.job_id]
  cases a.unitOf? job.id with
  | none => rfl
  | some unit =>
    simp only [position?_retime]
    cases p.position? unit <;> rfl

theorem placementOf_retime (p : Problem T) (a : Assignment) :
    (p.retime φ).placementOf a = (p.placementOf a).map (List.map (position φ)) := by
  have hcheck : (p.retime φ).checkEntries [] a.entries = (p.checkEntries [] a.entries).map id := by
    rw [checkEntries_retime, Except.map_id, id]
  exact bind_comm hcheck fun _ => mapM_map_comm (locate_retime φ p a) p.jobs

theorem zip_retime (p : Problem T) (x : p.Placement) :
    (p.retime φ).jobs.zip (x.map (position φ)) =
      (p.jobs.zip x).map (Prod.map φ.job (position φ)) :=
  List.zip_map

theorem rebind_retime (p : Problem T) (a : Assignment) (x : p.Placement) :
    (p.retime φ).rebind a (x.map (position φ)) = p.rebind a x := by
  rw [rebind, rebind, zip_retime, List.foldl_map]
  simp only [Prod.map_fst, Prod.map_snd, φ.job_id, unitId_retime]

theorem duration_retime (job : Job T) (u : p.Position) :
    (p.retime φ).duration (φ.job job) (position φ u) = p.duration job u := by
  rw [duration, duration, φ.job_length, get_retime, φ.unit_speed]

theorem loads_retime (x : p.Placement) :
    (p.retime φ).loads (x.map (position φ)) = p.loads x := by
  rw [loads, loads, finRange_retime, List.map_map]
  refine List.map_congr_left fun u _ => ?_
  have hjobs : (p.retime φ).jobsOn (x.map (position φ)) (position φ u) =
      (p.jobsOn x u).map φ.job := by
    rw [jobsOn, jobsOn, zip_retime, List.filter_map, List.map_map, List.map_map]
    refine congrArg (List.map _) (List.filter_congr fun entry _ => ?_)
    rw [Bool.eq_iff_iff, Function.comp_apply, beq_iff_eq, beq_iff_eq, Prod.map_snd, position_inj]
  rw [Function.comp_apply, load, load, hjobs, List.map_map]
  simp only [Function.comp_def, duration_retime]

theorem makespan_retime (x : p.Placement) :
    (p.retime φ).makespan (x.map (position φ)) = p.makespan x := by
  rw [makespan, makespan, loads_retime]

/-- The same move in the changed problem. -/
def Neighbour.retime {p : Problem T} (n : p.Neighbour) : (p.retime φ).Neighbour where
  index := n.index
  job := φ.job n.job
  source := position φ n.source
  target := position φ n.target
  score := n.score

theorem neighbours_retime (x : p.Placement) :
    (p.retime φ).neighbours (x.map (position φ)) =
      (p.neighbours x).map (Neighbour.retime φ) := by
  unfold neighbours neighboursAt
  rw [loads_retime, zip_retime, List.zipIdx_map, List.flatMap_map, List.map_flatMap]
  refine congrArg (List.flatMap · _) (funext fun ⟨⟨job, source⟩, index⟩ => ?_)
  have hothers : (List.finRange (p.retime φ).units.length).filter
        (fun target => decide (target ≠ position φ source)) =
      ((List.finRange p.units.length).filter fun target => decide (target ≠ source)).map
        (position φ) := by
    rw [finRange_retime, List.filter_map]
    simp only [Function.comp_def, ne_eq, position_inj]
  simp only [Prod.map_apply, id, hothers, List.map_map, Function.comp_def, duration_retime]
  rfl

theorem bestNeighbour?_retime (x : p.Placement) :
    (p.retime φ).bestNeighbour? (x.map (position φ)) =
      (p.bestNeighbour? x).map (Neighbour.retime φ) := by
  change Selection.best? _ (((p.retime φ).neighbours _).filter _) =
    (Selection.best? _ ((p.neighbours x).filter _)).map _
  simp only [makespan_retime, neighbours_retime, List.filter_map, Selection.best?_map]
  rfl

theorem apply_retime (n : p.Neighbour) (x : p.Placement) :
    (n.retime φ).apply (x.map (position φ)) = (n.apply x).map (position φ) :=
  List.map_set.symm

theorem step?_retime (x : p.Placement) :
    (p.retime φ).step? (x.map (position φ)) =
      (p.step? x).map fun round => (round.1, round.2.map (position φ)) := by
  unfold step?
  rw [bestNeighbour?_retime]
  cases p.bestNeighbour? x with
  | none => rfl
  | some n =>
    simp only [Option.map_some, apply_retime, makespan_retime]
    split
    · simp only [Option.map_some, Neighbour.retime, unitId_retime, φ.job_id]
    · rfl

/-- The search makes the same moves. -/
theorem descend_retime (cap : Option Nat) (made : Nat) (x : p.Placement) :
    (p.retime φ).descend cap made (x.map (position φ)) =
      ((p.descend cap made x).1, (p.descend cap made x).2.1.map (position φ),
        (p.descend cap made x).2.2) := by
  induction made, x using descend.induct p cap with
  | case1 made x h => rw [descend_of_capped h, descend_of_capped h]
  | case2 made x hc hnone =>
    have hagain : (p.retime φ).step? (x.map (position φ)) = none := by
      rw [step?_retime, hnone]
      rfl
    rw [descend_of_none hc hnone, descend_of_none hc hagain]
  | case3 made x hc move next hsome _ _ _ _ ih =>
    have hagain : (p.retime φ).step? (x.map (position φ)) =
        some (move, next.map (position φ)) := by
      rw [step?_retime, hsome]
      rfl
    rw [descend_of_some hc hsome, descend_of_some hc hagain, ih]

end LocalSearch.Problem

namespace LocalSearch

theorem Problem.ofInput_retime (jobs : List (Job T)) (units : List (ExecutionUnit T)) :
    ofInput (jobs.map φ.job) (units.map φ.unit) = (ofInput jobs units).map (retime φ) := by
  have hcheck (jobs : List (Job T)) (units : List (ExecutionUnit T)) :
      ((jobs.map φ.job).forM fun job => (units.map φ.unit).forM fun unit =>
        discard (executionTime job.length unit)) =
      (jobs.forM fun job => units.forM fun unit =>
        discard (executionTime job.length unit)).map id := by
    simp only [List.forM_eq_forM, List.forM_map, φ.job_length, φ.executionTime_retime,
      Except.map_id, id]
  simp only [ofInput, mergeSort_map_comm Job.id φ.job_id,
    mergeSort_map_comm ExecutionUnit.id φ.unit_id]
  exact bind_comm (hcheck _ _) fun _ => rfl

theorem optimize_retime (cap : Option Nat) (initial : Assignment) (jobs : List (Job T))
    (units : List (ExecutionUnit T)) :
    optimize cap initial (jobs.map φ.job) (units.map φ.unit) =
      optimize cap initial jobs units := by
  have hclimb : optimize cap initial (jobs.map φ.job) (units.map φ.unit) =
      (optimize cap initial jobs units).map id := by
    rw [optimize_eq_descend, optimize_eq_descend]
    refine bind_comm (Problem.ofInput_retime φ jobs units) fun p => ?_
    rw [Problem.placementOf_retime]
    cases p.placementOf initial with
    | error e => rfl
    | ok x =>
      simp only [Except.map, Problem.descend_retime, Problem.rebind_retime,
        Problem.makespan_retime, id]
  rw [hclimb, Except.map_id, id]

end LocalSearch

namespace InitialAssignment

theorem drawPairs_retime (units : List (ExecutionUnit T)) (jobs : List (Job T)) (g : Generator) :
    drawPairs (units.map φ.unit) (jobs.map φ.job) g = drawPairs units jobs g := by
  induction jobs generalizing g with
  | nil => rfl
  | cons job rest ih =>
    simp only [List.map_cons, drawPairs, List.isEmpty_map, List.length_map, ih, φ.job_id,
      List.getElem?_map]
    cases units[(g.below units.length).1]? with
    | none => rfl
    | some unit => simp only [Option.map_some, φ.unit_id]

def Loaded.retime (loaded : Loaded T) : Loaded T := { loaded with unit := φ.unit loaded.unit }

theorem Loaded.unit_id_retime (loaded : Loaded T) :
    (loaded.retime φ).unit.id = loaded.unit.id := φ.unit_id loaded.unit

theorem balance_retime (loaded : List (Loaded T)) (a : Assignment) (jobs : List (Job T)) :
    balance (loaded.map (Loaded.retime φ)) a (jobs.map φ.job) = balance loaded a jobs := by
  induction jobs generalizing loaded a with
  | nil => rfl
  | cons job rest ih =>
    have hlighter : (fun a b : Loaded T × Nat =>
        (Loaded.retime φ a.1).lighter (Loaded.retime φ b.1)) =
          fun a b => a.1.lighter b.1 := by
      funext a b
      rw [Loaded.lighter, Loaded.unit_id_retime, Loaded.unit_id_retime]
      rfl
    have hbest : Selection.best? (fun a b => a.1.lighter b.1)
          (loaded.map (Loaded.retime φ)).zipIdx =
        (Selection.best? (fun a b => a.1.lighter b.1) loaded.zipIdx).map
          (Prod.map (Loaded.retime φ) id) := by
      rw [List.zipIdx_map, Selection.best?_map]
      exact congrArg (fun prefers => (Selection.best? prefers loaded.zipIdx).map _) hlighter
    simp only [List.map_cons, balance, hbest, φ.job_length, φ.job_id]
    cases Selection.best? (fun a b => a.1.lighter b.1) loaded.zipIdx with
    | none => exact ih loaded a
    | some lightest =>
      have htime : executionTime job.length (Loaded.retime φ lightest.1).unit =
          executionTime job.length lightest.1.unit := φ.executionTime_retime _ _
      simp only [Option.map_some, Prod.map, id, htime, Loaded.unit_id_retime]
      cases executionTime job.length lightest.1.unit with
      | error e => rfl
      | ok time =>
        have hset : (loaded.map (Loaded.retime φ)).set lightest.2
              ⟨(Loaded.retime φ lightest.1).unit, lightest.1.load + time⟩ =
            (loaded.set lightest.2 ⟨lightest.1.unit, lightest.1.load + time⟩).map
              (Loaded.retime φ) := by
          rw [List.map_set]
          rfl
        exact (congrArg (balance · _ _) hset).trans (ih _ _)

theorem build_retime (initial : InitialAssignment) (jobs : List (Job T))
    (units : List (ExecutionUnit T)) :
    initial.build (jobs.map φ.job) (units.map φ.unit) = initial.build jobs units := by
  cases initial with
  | explicit a => rfl
  | random seed => rw [build, build, draw, draw, drawPairs_retime]
  | leastLoaded =>
    have hloaded : (units.map φ.unit).map (fun unit => (⟨unit, 0⟩ : Loaded T)) =
        (units.map fun unit => ⟨unit, 0⟩).map (Loaded.retime φ) := by
      rw [List.map_map, List.map_map]
      rfl
    rw [build, build, balanced, balanced, hloaded, balance_retime]

end InitialAssignment

theorem findJob?_retime (jobs : List (Job T)) (id : JobId) :
    findJob? (jobs.map φ.job) id = (findJob? jobs id).map φ.job := by
  rw [findJob?, findJob?, List.findRev?_eq_find?_reverse, List.findRev?_eq_find?_reverse,
    ← List.map_reverse, List.find?_map]
  simp only [Function.comp_def, φ.job_id]

theorem findUnit?_retime (units : List (ExecutionUnit T)) (id : UnitId) :
    findUnit? (units.map φ.unit) id = (findUnit? units id).map φ.unit := by
  rw [findUnit?, findUnit?, List.findRev?_eq_find?_reverse, List.findRev?_eq_find?_reverse,
    ← List.map_reverse, List.find?_map]
  simp only [Function.comp_def, φ.unit_id]

namespace Execution

theorem Clocks.at_retime (clocks : Clocks T) (unit : ExecutionUnit T) :
    Clocks.at (clocks.map (Prod.map id φ.time)) (φ.unit unit) = φ.time (clocks.at unit) := by
  rw [Clocks.at, Clocks.at, φ.unit_id, φ.unit_ready]
  induction clocks with
  | nil => rfl
  | cons entry rest ih =>
    obtain ⟨id, time⟩ := entry
    simp only [List.map_cons, Prod.map_apply, id_eq, List.lookup_cons]
    cases unit.id == id with
    | true => rfl
    | false => exact ih

theorem run_retime (jobs : List (Job T)) (units : List (ExecutionUnit T)) (seen : List JobId)
    (clocks : Clocks T) (entries : List (JobId × UnitId)) :
    run (jobs.map φ.job) (units.map φ.unit) seen (clocks.map (Prod.map id φ.time)) entries =
      (run jobs units seen clocks entries).map (List.map φ.completion) := by
  induction entries generalizing seen clocks with
  | nil => rfl
  | cons entry rest ih =>
    simp only [run, findJob?_retime, findUnit?_retime]
    split
    · rfl
    cases findJob? jobs entry.1 with
    | none => rfl
    | some job =>
      cases findUnit? units entry.2 with
      | none => rfl
      | some unit =>
        have htime : executionTime (φ.job job).length (φ.unit unit) =
            (executionTime job.length unit).map id := by
          rw [φ.executionTime_retime, φ.job_length, Except.map_id, id]
        refine bind_comm htime fun d => ?_
        simp only [Clocks.at_retime, φ.job_arrival, φ.larger_time, id, ← φ.time_add]
        exact bind_comm (ih _ ((entry.2, _) :: clocks)) fun _ => rfl

theorem execute_retime (a : Assignment) (jobs : List (Job T)) (units : List (ExecutionUnit T)) :
    execute a (jobs.map φ.job) (units.map φ.unit) =
      (execute a jobs units).map (List.map φ.completion) := by
  unfold execute
  rw [List.find?_map]
  simp only [Function.comp_def, φ.job_id]
  cases jobs.find? fun job => (a.unitOf? job.id).isNone with
  | none => exact run_retime φ jobs units [] [] a.entries
  | some job =>
    exact congrArg (fun id => Except.error (AllocationError.jobUnassigned id)) (φ.job_id job)

end Execution
end JobAllocation
