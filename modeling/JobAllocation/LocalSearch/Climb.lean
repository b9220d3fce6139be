import JobAllocation.LocalSearch.Neighbour

/-!
# Steepest descent

Each round takes the move with the lowest score and makes it if the makespan, summed afresh, has
really gone down. The search stops when there is no such move, or at a cap on the number of moves.
From round to round it keeps the loads of its placement and the largest of them. `descend` is the
search on placements alone, with everything summed afresh in each round.

The makespan goes down with every move, so no placement is met twice, and there are finitely many
placements. `below` counts those that are still ahead.
-/
namespace JobAllocation.LocalSearch

/-- A move that was made, with the makespan after it. -/
structure Move (T : Type) where
  job : JobId
  source : UnitId
  target : UnitId
  makespan : T
  deriving DecidableEq

/-- What a search did. -/
structure Climb (T : Type) where
  assignment : Assignment
  initialMakespan : T
  makespan : T
  moves : List (Move T)
  /-- The search ended by itself, not at the cap. -/
  converged : Bool
  deriving DecidableEq

namespace Problem

/-- All lists of `n` positions among `m`. -/
def placements (m : Nat) : Nat → List (List (Fin m))
  | 0 => [[]]
  | n + 1 => (List.finRange m).flatMap fun u => (placements m n).map (u :: ·)

theorem mem_placements {m : Nat} (x : List (Fin m)) : x ∈ placements m x.length := by
  induction x with
  | nil => simp [placements]
  | cons u x ih => simp [placements, ih]

variable {T : Type} [Quantity T]

/-- What a search keeps from round to round: a placement, its loads and the largest of them. -/
structure Stage (p : Problem T) where
  placement : p.Placement
  loads : List T
  makespan : T

/-- The stage at a placement, with its loads summed afresh. -/
def stage (p : Problem T) (x : p.Placement) : p.Stage :=
  let loads := p.loads x
  { placement := x, loads, makespan := Quantity.largest loads }

/-- The move that a round makes, with the stage after it. -/
def Stage.step? {p : Problem T} (s : p.Stage) : Option (Move T × p.Stage) :=
  match p.bestNeighbourAt? s.loads s.makespan s.placement with
  | none => none
  | some n =>
    let next := p.stage (n.apply s.placement)
    if next.makespan < s.makespan then
      some ({ job := n.job.id, source := p.unitId n.source, target := p.unitId n.target
              makespan := next.makespan }, next)
    else
      none

/-- The round on a placement alone. -/
def step? (p : Problem T) (x : p.Placement) : Option (Move T × p.Placement) :=
  match p.bestNeighbour? x with
  | none => none
  | some n =>
    let next := n.apply x
    if p.makespan next < p.makespan x then
      some ({ job := n.job.id, source := p.unitId n.source, target := p.unitId n.target
              makespan := p.makespan next }, next)
    else
      none

/-- The number of placements of `n` jobs with a makespan below a value. -/
def below (p : Problem T) (n : Nat) (value : T) : Nat :=
  ((placements p.units.length n).filter fun y => p.makespan y < value).length

/-- The number of placements of the same jobs with a lower makespan. -/
def better (p : Problem T) (x : p.Placement) : Nat := p.below x.length (p.makespan x)

theorem Stage.below_of_step? {p : Problem T} {s next : p.Stage} {move : Move T}
    (h : s.step? = some (move, next)) : ∃ x, next = p.stage x ∧
      x.length = s.placement.length ∧ p.makespan x < s.makespan := by
  unfold step? at h
  cases hn : p.bestNeighbourAt? s.loads s.makespan s.placement with
  | none => simp [hn] at h
  | some n =>
    simp only [hn] at h
    split at h
    · next hlt =>
      cases h
      exact ⟨_, rfl, by simp [Neighbour.apply], hlt⟩
    · simp at h

theorem exists_of_step? {p : Problem T} {x next : p.Placement} {move : Move T}
    (h : p.step? x = some (move, next)) :
    ∃ n, p.bestNeighbour? x = some n ∧ next = n.apply x ∧ p.makespan next < p.makespan x := by
  unfold step? at h
  cases hn : p.bestNeighbour? x with
  | none => simp [hn] at h
  | some n =>
    simp only [hn] at h
    split at h
    · next hlt =>
      cases h
      exact ⟨n, rfl, rfl, hlt⟩
    · simp at h

theorem length_of_step? {p : Problem T} {x next : p.Placement} {move : Move T}
    (h : p.step? x = some (move, next)) : next.length = x.length := by
  obtain ⟨n, _, rfl, _⟩ := exists_of_step? h
  simp [Neighbour.apply]

theorem makespan_lt_of_step? {p : Problem T} {x next : p.Placement} {move : Move T}
    (h : p.step? x = some (move, next)) : p.makespan next < p.makespan x := by
  obtain ⟨_, _, _, hlt⟩ := exists_of_step? h
  exact hlt

theorem filter_length_lt {α : Type} {p q : α → Bool} {l : List α} {a : α}
    (hpq : ∀ b, p b = true → q b = true) (ha : a ∈ l) (hp : p a = false) (hq : q a = true) :
    (l.filter p).length < (l.filter q).length := by
  have hle (l : List α) : (l.filter p).length ≤ (l.filter q).length := by
    rw [← List.countP_eq_length_filter, ← List.countP_eq_length_filter]
    exact List.countP_mono_left fun b _ => hpq b
  obtain ⟨front, back, rfl⟩ := List.append_of_mem ha
  have hf := hle front
  have hb := hle back
  simp only [List.filter_append, List.length_append, List.filter_cons, hp, hq, Bool.false_eq_true,
    ↓reduceIte, List.length_cons]
  omega

theorem below_lt {p : Problem T} {x : p.Placement} {value : T} (h : p.makespan x < value) :
    p.below x.length (p.makespan x) < p.below x.length value := by
  refine filter_length_lt (a := x) ?_ (mem_placements x) ?_ ?_
  · intro y hy
    exact decide_eq_true (Quantity.lt_trans (of_decide_eq_true hy) h)
  · exact decide_eq_false (Quantity.lt_irrefl _)
  · exact decide_eq_true h

theorem better_lt {p : Problem T} {x next : p.Placement} (hl : next.length = x.length)
    (h : p.makespan next < p.makespan x) : p.better next < p.better x := by
  rw [better, better, ← hl]
  exact below_lt h

/-- Whether a cap forbids another move. -/
def capped (cap : Option Nat) (made : Nat) : Bool :=
  match cap with
  | none => false
  | some cap => cap ≤ made

/-- Makes moves until there is none to make, or until the cap, with `made` of them made before.
Returns the moves, the last stage, and whether there was none left to make. -/
def Stage.climb {p : Problem T} (cap : Option Nat) (made : Nat) (s : p.Stage) :
    List (Move T) × p.Stage × Bool :=
  if capped cap made then ([], s, false)
  else
    match _h : s.step? with
    | none => ([], s, true)
    | some (move, next) =>
      let (moves, last, converged) := next.climb cap (made + 1)
      (move :: moves, last, converged)
termination_by p.below s.placement.length s.makespan
decreasing_by
  obtain ⟨x, rfl, hl, hlt⟩ := below_of_step? _h
  exact hl ▸ below_lt hlt

/-- The search on placements alone. -/
def descend (p : Problem T) (cap : Option Nat) (made : Nat) (x : p.Placement) :
    List (Move T) × p.Placement × Bool :=
  if capped cap made then ([], x, false)
  else
    match _h : p.step? x with
    | none => ([], x, true)
    | some (move, next) =>
      let (moves, last, converged) := p.descend cap (made + 1) next
      (move :: moves, last, converged)
termination_by p.better x
decreasing_by exact better_lt (length_of_step? _h) (makespan_lt_of_step? _h)

end Problem

/-- Improves an assignment by single moves, at most `cap` of them. -/
def optimize {T : Type} [Quantity T] (cap : Option Nat) (initial : Assignment) (jobs : List (Job T))
    (units : List (ExecutionUnit T)) : Except (AllocationError T) (Climb T) := do
  let p ← Problem.ofInput jobs units
  let first := p.stage (← p.placementOf initial)
  let (moves, last, converged) := first.climb cap 0
  return {
    assignment := p.rebind initial last.placement
    initialMakespan := first.makespan
    makespan := last.makespan
    moves
    converged }

end JobAllocation.LocalSearch
