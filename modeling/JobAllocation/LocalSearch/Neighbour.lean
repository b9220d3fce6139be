import JobAllocation.LocalSearch.Problem
import JobAllocation.Selection

/-!
# Scoring single moves

Moving one job changes two loads. The makespan after a move is the largest of these two and of the
loads that stay, and the largest load that stays is among the three heaviest, whichever two units
the move touches. A neighbour is scored from the current loads in this way, without summing them
again.
-/
namespace JobAllocation.LocalSearch

variable {T : Type} [Quantity T]

/-- Puts an entry before the first one that it strictly outweighs. An entry that gives way goes on
to be put in behind. -/
def insertHeavy (entry : T × Nat) : List (T × Nat) → List (T × Nat)
  | [] => [entry]
  | held :: rest =>
    if held.1 < entry.1 then entry :: insertHeavy held rest else held :: insertHeavy entry rest

/-- The three largest loads with their positions, heaviest first. -/
def topThree (loads : List T) : List (T × Nat) :=
  loads.zipIdx.foldl (fun top entry => (insertHeavy entry top).take 3) []

/-- The makespan after the loads at two positions have changed, given the heaviest loads before. -/
def makespanAfter (top : List (T × Nat)) (source target : Nat × T) : T :=
  let untouched := top.find? fun (_, i) => i != source.1 && i != target.1
  Quantity.larger (Quantity.larger ((untouched.map (·.1)).getD 0) source.2) target.2

namespace Problem

/-- A move of the job at an index to a unit, with the makespan that it is scored at. -/
structure Neighbour (p : Problem T) where
  index : Nat
  job : Job T
  source : p.Position
  target : p.Position
  score : T

/-- Every move of one job to another unit, in ascending order of jobs and then of units, scored from
the loads that are given. -/
def neighboursAt (p : Problem T) (loads : List T) (x : p.Placement) : List p.Neighbour :=
  let top := topThree loads
  ((p.jobs.zip x).zipIdx).flatMap fun ((job, source), index) =>
    let lighter := loads.getD source.val 0 - p.duration job source
    ((List.finRange p.units.length).filter (· ≠ source)).map fun target =>
      let heavier := loads.getD target.val 0 + p.duration job target
      { index, job, source, target
        score := makespanAfter top (source.val, lighter) (target.val, heavier) }

/-- The first move of those with the lowest score, if that is below the current makespan. -/
def bestNeighbourAt? (p : Problem T) (loads : List T) (current : T) (x : p.Placement) :
    Option p.Neighbour :=
  Selection.best? (fun a b => a.score < b.score)
    ((p.neighboursAt loads x).filter fun n => n.score < current)

/-- Every move, scored from the loads of the placement. -/
def neighbours (p : Problem T) (x : p.Placement) : List p.Neighbour := p.neighboursAt (p.loads x) x

/-- The best move, from the loads of the placement and the largest of them. -/
def bestNeighbour? (p : Problem T) (x : p.Placement) : Option p.Neighbour :=
  p.bestNeighbourAt? (p.loads x) (p.makespan x) x

/-- The placement after a move. -/
def Neighbour.apply {p : Problem T} (n : p.Neighbour) (x : p.Placement) : p.Placement :=
  x.set n.index n.target

end Problem
end JobAllocation.LocalSearch
