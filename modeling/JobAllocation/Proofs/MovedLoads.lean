import JobAllocation.Proofs.HeaviestLoads
import JobAllocation.Proofs.Placements

/-!
# Loads after a move

A move takes its job out of the jobs of one unit and puts it among those of another, at its place in
the order of jobs. All other units keep their jobs, so the score of a move is off from the makespan
after it only by what is lost when two sums are adjusted and not summed again.
-/
namespace JobAllocation.LocalSearch

variable {T : Type} [Quantity T]

namespace Problem

variable {p : Problem T} {x : p.Placement} {n : p.Neighbour}

omit [Quantity T] in
theorem jobsOn_sublist (hlen : x.length = p.jobs.length) (u : p.Position) :
    (p.jobsOn x u).Sublist p.jobs := by
  have hfilter : ((p.jobs.zip x).filter (·.2 == u)).Sublist (p.jobs.zip x) := List.filter_sublist
  have hfst : (p.jobs.zip x).map (·.1) = p.jobs := List.map_fst_zip (Nat.le_of_eq hlen.symm)
  exact hfst ▸ hfilter.map _

/-- A move changes one entry of the placement. -/
theorem Neighbour.Moves.exists_zip (hn : n.Moves x) : ∃ front back,
    p.jobs.zip x = front ++ (n.job, n.source) :: back ∧
      p.jobs.zip (n.apply x) = front ++ (n.job, n.target) :: back := by
  obtain ⟨hi, hjob⟩ := List.getElem?_eq_some_iff.mp hn.job_at
  obtain ⟨hx, hsource⟩ := List.getElem?_eq_some_iff.mp hn.source_at
  obtain ⟨jobs₁, jobs₂, hjobs, hlen, -⟩ := @List.exists_of_set _ _ n.job _ hi
  obtain ⟨before, after, hsplit, hbefore, hset⟩ := @List.exists_of_set _ _ n.target _ hx
  rw [hjob] at hjobs
  rw [hsource] at hsplit
  have hlengths : jobs₁.length = before.length := hlen.trans hbefore.symm
  refine ⟨jobs₁.zip before, jobs₂.zip after, ?_, ?_⟩
  · rw [hjobs, hsplit, List.zip_append hlengths, List.zip_cons_cons]
  · rw [apply, hset, hjobs, List.zip_append hlengths, List.zip_cons_cons]

theorem Neighbour.Moves.jobsOn_source (hn : n.Moves x) : ∃ front back,
    p.jobsOn x n.source = front ++ n.job :: back ∧
      p.jobsOn (n.apply x) n.source = front ++ back := by
  obtain ⟨front, back, hbefore, hafter⟩ := hn.exists_zip
  refine ⟨(front.filter (·.2 == n.source)).map (·.1), (back.filter (·.2 == n.source)).map (·.1),
    ?_, ?_⟩
  · simp [jobsOn, hbefore]
  · simp [jobsOn, hafter, hn.target_ne]

theorem Neighbour.Moves.jobsOn_target (hn : n.Moves x) : ∃ front back,
    p.jobsOn x n.target = front ++ back ∧
      p.jobsOn (n.apply x) n.target = front ++ n.job :: back := by
  obtain ⟨front, back, hbefore, hafter⟩ := hn.exists_zip
  refine ⟨(front.filter (·.2 == n.target)).map (·.1), (back.filter (·.2 == n.target)).map (·.1),
    ?_, ?_⟩
  · simp [jobsOn, hbefore, hn.target_ne.symm]
  · simp [jobsOn, hafter]

theorem Neighbour.Moves.jobsOn_other (hn : n.Moves x) {u : p.Position} (hs : u ≠ n.source)
    (ht : u ≠ n.target) : p.jobsOn (n.apply x) u = p.jobsOn x u := by
  obtain ⟨front, back, hbefore, hafter⟩ := hn.exists_zip
  simp [jobsOn, hbefore, hafter, hs.symm, ht.symm]

theorem Neighbour.Moves.load_other (hn : n.Moves x) {u : p.Position} (hs : u ≠ n.source)
    (ht : u ≠ n.target) : p.load (n.apply x) u = p.load x u := by
  rw [load, hn.jobsOn_other hs ht, load]

omit [Quantity T] in
theorem Neighbour.length_apply (n : p.Neighbour) (x : p.Placement) :
    (n.apply x).length = x.length := List.length_set

theorem getElem?_loads (x : p.Placement) (u : p.Position) :
    (p.loads x)[u.val]? = some (p.load x u) := by
  rw [loads, List.getElem?_map, List.getElem?_eq_getElem (by simp), List.getElem_finRange]
  rfl

theorem Neighbour.Moves.loads_other (hn : n.Moves x) (i : Nat) (hs : i ≠ n.source.val)
    (ht : i ≠ n.target.val) : (p.loads (n.apply x))[i]? = (p.loads x)[i]? := by
  by_cases hi : i < p.units.length
  · have hother := hn.load_other (u := ⟨i, hi⟩) (fun h => hs (congrArg Fin.val h))
      fun h => ht (congrArg Fin.val h)
    rw [getElem?_loads (n.apply x) ⟨i, hi⟩, getElem?_loads x ⟨i, hi⟩, hother]
  · have hlen (y : p.Placement) : (p.loads y).length ≤ i := by
      simpa [loads] using Nat.le_of_not_lt hi
    rw [List.getElem?_eq_none (hlen _), List.getElem?_eq_none (hlen _)]

section Order

variable [LawfulQuantity T]

/-- No job takes less than no time. -/
def Timed (p : Problem T) : Prop := ∀ job ∈ p.jobs, ∀ u, 0 ≤ p.duration job u

theorem nonneg_load (hp : p.Timed) (hlen : x.length = p.jobs.length) (u : p.Position) :
    0 ≤ p.load x u := by
  refine Quantity.nonneg_total fun y hy => ?_
  obtain ⟨job, hj, rfl⟩ := List.mem_map.mp hy
  exact hp job ((jobsOn_sublist hlen u).subset hj) u

theorem nonneg_loads (hp : p.Timed) (hlen : x.length = p.jobs.length) :
    ∀ y ∈ p.loads x, 0 ≤ y := by
  intro y hy
  obtain ⟨u, -, rfl⟩ := List.mem_map.mp hy
  exact nonneg_load hp hlen u

/-- A move whose adjusted loads agree with the sums after it is scored at the makespan after it. -/
theorem Neighbour.Moves.same_score (hn : n.Moves x) (hp : p.Timed)
    (hlen : x.length = p.jobs.length)
    (hs : Quantity.Same (p.load x n.source - p.duration n.job n.source)
      (p.load (n.apply x) n.source))
    (ht : Quantity.Same (p.load x n.target + p.duration n.job n.target)
      (p.load (n.apply x) n.target)) :
    Quantity.Same n.score (p.makespan (n.apply x)) := by
  rw [hn.score_eq]
  exact same_makespanAfter (nonneg_loads hp hlen)
    (nonneg_loads hp ((n.length_apply x).trans hlen)) hn.loads_other (getElem?_loads _ _)
    (getElem?_loads _ _) hs ht

/-- A move that lowers the makespan is scored below it, unless the adjusted load of one of its two
units reaches it. -/
theorem Neighbour.Moves.score_lt_iff (hn : n.Moves x) (hp : p.Timed)
    (hlen : x.length = p.jobs.length) (hlower : p.makespan (n.apply x) < p.makespan x) :
    n.score < p.makespan x ↔
      ¬ p.makespan x ≤ p.load x n.source - p.duration n.job n.source ∧
        ¬ p.makespan x ≤ p.load x n.target + p.duration n.job n.target := by
  have hloads := nonneg_loads hp hlen
  have hlater := nonneg_loads hp ((n.length_apply x).trans hlen)
  have hheavier : 0 ≤ p.load x n.target + p.duration n.job n.target :=
    Quantity.nonneg_add (nonneg_load hp hlen _) (hp _ (List.mem_of_getElem? hn.job_at) _)
  have huntouched : untouched (p.loads x) n.source.val n.target.val ≤ p.makespan (n.apply x) := by
    rcases untouched_eq_or (p.loads x) n.source.val n.target.val with h | ⟨i, hs, ht, h⟩
    · rw [h]
      exact Quantity.nonneg_largest _
    · exact Quantity.le_largest hlater
        (List.mem_of_getElem? ((hn.loads_other i hs ht).trans h))
  rw [hn.score_eq]
  exact makespanAfter_lt_iff hloads hheavier (Quantity.nonneg_largest _)
    (Quantity.lt_of_le_of_lt huntouched hlower)

end Order
end Problem
end JobAllocation.LocalSearch
