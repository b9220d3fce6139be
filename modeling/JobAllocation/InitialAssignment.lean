import JobAllocation.Assignment
import JobAllocation.Estimate
import JobAllocation.Random.Generator
import JobAllocation.Selection

/-!
# Where the search for an assignment starts

From a given assignment, from units drawn at random, or from the assignment that gives each job in
turn to the unit with the least work so far.
-/
namespace JobAllocation

inductive InitialAssignment where
  | explicit (assignment : Assignment)
  | random (seed : Nat)
  | leastLoaded
  deriving DecidableEq

namespace InitialAssignment

variable {T : Type}

/-- Draws a unit for each job in turn. Nothing is drawn from an empty pool. -/
def drawPairs (units : List (ExecutionUnit T)) :
    List (Job T) → Generator → List (JobId × UnitId) × Generator
  | [], g => ([], g)
  | job :: rest, g =>
    if units.isEmpty then ([], g)
    else
      let (i, g) := g.below units.length
      let (pairs, g) := drawPairs units rest g
      match units[i]? with
      | some unit => ((job.id, unit.id) :: pairs, g)
      | none => (pairs, g)

/-- An assignment of each job to a drawn unit. -/
def draw (jobs : List (Job T)) (units : List (ExecutionUnit T)) (g : Generator) :
    Assignment × Generator :=
  let (pairs, g) := drawPairs units jobs g
  (.ofPairs pairs, g)

variable [Quantity T]

/-- A unit with the work that it has been given so far. -/
structure Loaded (T : Type) where
  unit : ExecutionUnit T
  load : T

/-- Has less work, or as much and a lower number. -/
def Loaded.lighter (a b : Loaded T) : Bool :=
  a.load < b.load || (Quantity.Same a.load b.load && a.unit.id < b.unit.id)

/-- Gives each job in turn to the lightest unit. -/
def balance (loaded : List (Loaded T)) (a : Assignment) :
    List (Job T) → Except (AllocationError T) Assignment
  | [] => .ok a
  | job :: rest =>
    match Selection.best? (fun a b => a.1.lighter b.1) loaded.zipIdx with
    | none => balance loaded a rest
    | some (lightest, i) => do
      let load := lightest.load + (← executionTime job.length lightest.unit)
      balance (loaded.set i { lightest with load }) (a.assign job.id lightest.unit.id) rest

/-- An assignment that gives each job in turn to the unit with the least work so far. -/
def balanced (jobs : List (Job T)) (units : List (ExecutionUnit T)) :
    Except (AllocationError T) Assignment :=
  balance (units.map fun unit => { unit, load := 0 }) .empty jobs

def build (initial : InitialAssignment) (jobs : List (Job T)) (units : List (ExecutionUnit T)) :
    Except (AllocationError T) Assignment :=
  match initial with
  | explicit a => .ok a
  | random seed => .ok (draw jobs units (.ofSeed seed)).1
  | leastLoaded => balanced jobs units

end InitialAssignment
end JobAllocation
