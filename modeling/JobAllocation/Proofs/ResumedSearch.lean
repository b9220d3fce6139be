import JobAllocation.Proofs.LocalOptimum

/-!
# A search that was cut short can be resumed

A cap on the number of moves cuts a search short and changes nothing else: the moves that are made
are the first of those that the full search makes. Everything that the search goes by is determined
by its placement, so a full search from where it was cut short makes the others. One from the end of
a full search makes none.
-/
namespace JobAllocation.LocalSearch

variable {T : Type} [Quantity T] {jobs : List (Job T)} {units : List (ExecutionUnit T)}
  {p : Problem T} {initial : Assignment}

namespace Problem

variable {x : p.Placement}

/-- Without a cap it does not matter how many moves were made before. -/
theorem descend_uncapped (made other : Nat) (x : p.Placement) :
    p.descend none made x = p.descend none other x := by
  have hc (n : Nat) : ¬ capped none n = true := Bool.false_ne_true
  induction made, x using descend.induct p none generalizing other with
  | case1 made x h => exact absurd h (hc made)
  | case2 made x _ hnone => rw [descend_of_none (hc made) hnone, descend_of_none (hc other) hnone]
  | case3 made x _ move next hsome _ _ _ _ ih =>
    rw [descend_of_some (hc made) hsome, descend_of_some (hc other) hsome, ih (other + 1)]

/-- A search that had room for some number of moves, as a part of the full one. -/
structure CutShort (p : Problem T) (x : p.Placement) (room : Nat)
    (run : List (Move T) × p.Placement × Bool) : Prop where
  moves_eq : run.1 = (p.descend none 0 x).1.take room
  converged_iff : run.2.2 = true ↔ (p.descend none 0 x).1.length < room
  resumed : p.descend none 0 run.2.1 =
    ((p.descend none 0 x).1.drop room, (p.descend none 0 x).2)

/-- With every move that is made there is room for one less. -/
theorem cutShort_descend (cap made : Nat) (x : p.Placement) :
    p.CutShort x (cap - made) (p.descend (some cap) made x) := by
  have huncapped (n : Nat) : ¬ capped none n = true := Bool.false_ne_true
  induction made, x using descend.induct p (some cap) with
  | case1 made x hc =>
    have hroom : cap - made = 0 := Nat.sub_eq_zero_of_le (of_decide_eq_true hc)
    rw [descend_of_capped hc, hroom]
    exact ⟨rfl, by simp, rfl⟩
  | case2 made x hc hnone =>
    have hroom : 0 < cap - made := Nat.sub_pos_of_lt (not_capped_iff.mp hc cap rfl)
    rw [descend_of_none hc hnone]
    constructor <;> rw [descend_of_none (huncapped 0) hnone]
    · rw [List.take_nil]
    · simpa using hroom
    · rw [List.drop_nil]
  | case3 made x hc move next hsome _ _ _ _ ih =>
    have hroom : cap - made = cap - (made + 1) + 1 := by
      have := not_capped_iff.mp hc cap rfl
      omega
    rw [descend_of_some hc hsome, hroom]
    constructor <;> rw [descend_of_some (huncapped 0) hsome, descend_uncapped (0 + 1) 0 next]
    · rw [List.take_succ_cons, ih.moves_eq]
    · rw [List.length_cons, Nat.add_lt_add_iff_right]
      exact ih.converged_iff
    · exact ih.resumed

/-- From where a full search ends there is no move to make. -/
theorem descend_last (x : p.Placement) :
    p.descend none 0 (p.descend none 0 x).2.1 = ([], (p.descend none 0 x).2.1, true) :=
  descend_of_none Bool.false_ne_true (step?_of_converged (converged_of_uncapped 0 x))

end Problem

/-- A search with a full one after it, as the two go from placement to placement. -/
theorem exists_resumed (hp : Poses jobs units p) (hi : initial.Complete p.jobs p.units)
    {x : p.Placement} (hx : p.Describes x initial) (cap : Option Nat) :
    ∃ climb rest, optimize cap initial jobs units = .ok climb ∧
      optimize none climb.assignment jobs units = .ok rest ∧
      climb.moves = (p.descend cap 0 x).1 ∧ climb.converged = (p.descend cap 0 x).2.2 ∧
      climb.assignment = p.rebind initial (p.descend cap 0 x).2.1 ∧
      climb.makespan = p.makespan (p.descend cap 0 x).2.1 ∧
      rest.moves = (p.descend none 0 (p.descend cap 0 x).2.1).1 ∧
      rest.assignment = p.rebind initial (p.descend none 0 (p.descend cap 0 x).2.1).2.1 ∧
      rest.makespan = p.makespan (p.descend none 0 (p.descend cap 0 x).2.1).2.1 := by
  obtain ⟨first, hfirst, hdescribes, hcomplete, hjobs, -⟩ := Problem.exists_replay hp hi hx cap
  obtain ⟨last, hlast, hends, hlastComplete, hlastJobs, -⟩ :=
    Problem.exists_replay hp hcomplete hdescribes none
  -- Rebinding keeps the order of the entries, so it does not matter which assignment is rebound.
  have hrebind : p.rebind initial (p.descend none 0 (p.descend cap 0 x).2.1).2.1 = last :=
    Problem.rebind_eq hlastComplete hends hp.jobs_distinct (hjobs.symm.trans hlastJobs.symm)
  have hrun := optimize_eq hp hi hx cap
  have hrest := optimize_eq hp hcomplete hdescribes none
  rw [hfirst] at hrun
  rw [hlast] at hrest
  exact ⟨_, _, hrun, hrest, rfl, rfl, hfirst.symm, rfl, rfl, hrebind.symm, rfl⟩

/-- A capped search makes the first moves of the full one and ends by itself if those are fewer than
the cap. A full search from where it ends makes the others and ends where the full one does. From
there a search makes no move. -/
theorem capped_search_resumes (initial : Assignment) (jobs : List (Job T))
    (units : List (ExecutionUnit T)) (jobs_distinct : (jobs.map (·.id)).Nodup)
    (units_distinct : (units.map (·.id)).Nodup) (speed_pos : ∀ unit ∈ units, 0 < unit.speed)
    (complete : initial.Complete jobs units) :
    ∃ full, optimize none initial jobs units = .ok full ∧
      (∀ cap, ∃ capped rest, optimize (some cap) initial jobs units = .ok capped ∧
        capped.moves = full.moves.take cap ∧
        (capped.converged = true ↔ full.moves.length < cap) ∧
        optimize none capped.assignment jobs units = .ok rest ∧
        rest.moves = full.moves.drop cap ∧ rest.assignment = full.assignment ∧
        rest.makespan = full.makespan) ∧
      ∃ again, optimize none full.assignment jobs units = .ok again ∧ again.moves = [] ∧
        again.assignment = full.assignment ∧ again.makespan = full.makespan := by
  obtain ⟨p, hp⟩ := exists_poses jobs_distinct units_distinct speed_pos
  have hi := hp.complete complete
  obtain ⟨x, hx⟩ := Problem.exists_describes hi
  obtain ⟨full, again, hfull, hagain, hmoves, -, hlast, hvalue, hmoves', hlast', hvalue'⟩ :=
    exists_resumed hp hi hx none
  rw [Problem.descend_last] at hmoves' hlast' hvalue'
  refine ⟨full, hfull, fun cap => ?_, again, hagain, hmoves', hlast'.trans hlast.symm,
    hvalue'.trans hvalue.symm⟩
  have hcut := Problem.cutShort_descend (x := x) cap 0
  obtain ⟨capped, rest, hcapped, hrest, hfirst, hconverged, -, -, hmoves', hlast', hvalue'⟩ :=
    exists_resumed hp hi hx (some cap)
  rw [hcut.resumed] at hmoves' hlast' hvalue'
  rw [Nat.sub_zero] at hcut hmoves'
  refine ⟨capped, rest, hcapped, ?_, ?_, hrest, ?_, hlast'.trans hlast.symm,
    hvalue'.trans hvalue.symm⟩
  · rw [hfirst, hmoves, hcut.moves_eq]
  · rw [hconverged, hmoves, hcut.converged_iff]
  · rw [hmoves', hmoves]

theorem capped_search_resumes_crowded :
    (lopsided.jobs.map (·.id)).Nodup ∧ (lopsided.units.map (·.id)).Nodup ∧
      (∀ unit ∈ lopsided.units, 0 < unit.speed) ∧
      crowded.Complete lopsided.jobs lopsided.units ∧
      ∃ full capped rest, optimize none crowded lopsided.jobs lopsided.units = .ok full ∧
        optimize (some 1) crowded lopsided.jobs lopsided.units = .ok capped ∧
        optimize none capped.assignment lopsided.jobs lopsided.units = .ok rest ∧
        capped.moves ++ rest.moves = full.moves ∧ rest.assignment = full.assignment := by
  have hj : (lopsided.jobs.map (·.id)).Nodup := by decide
  have hu : (lopsided.units.map (·.id)).Nodup := by decide
  have hs : ∀ unit ∈ lopsided.units, 0 < unit.speed := by decide +kernel
  have hc : crowded.Complete lopsided.jobs lopsided.units := ⟨.swap 0 1 [], by decide⟩
  obtain ⟨full, hfull, hcut, -⟩ :=
    capped_search_resumes crowded lopsided.jobs lopsided.units hj hu hs hc
  obtain ⟨capped, rest, hcapped, hmoves, -, hrest, hmoves', hlast, -⟩ := hcut 1
  refine ⟨hj, hu, hs, hc, full, capped, rest, hfull, hcapped, hrest, ?_, hlast⟩
  rw [hmoves, hmoves', List.take_append_drop]

end JobAllocation.LocalSearch
