import JobAllocation.BatchScheduling
import JobAllocation.HillClimbing
import JobAllocation.ListScheduling
import JobAllocation.RoundRobin

/-!
# Policies

An allocator is any way of allocating, with all its parameters. A policy names one of the usual
ones.
-/
namespace JobAllocation

/-- A way of allocating. -/
inductive Allocator where
  | list (policy : ListScheduling)
  | batch (heuristic : BatchHeuristic)
  | roundRobin (quantum : Nat)
  | hillClimbing (policy : HillClimbing)
  deriving DecidableEq

namespace Allocator

def name : Allocator → String
  | list policy => policy.name
  | batch heuristic => heuristic.name
  | roundRobin _ => "RoundRobin"
  | hillClimbing _ => "HillClimbing"

/-- Allocates the jobs of a pool to its units. -/
def allocate {T : Type} [Quantity T] (allocator : Allocator) (pool : Pool T) :
    Except (AllocationError T) (Allocation T) :=
  match allocator with
  | list policy => policy.allocate pool
  | batch heuristic => heuristic.allocate pool
  | roundRobin quantum => RoundRobin.allocate quantum pool
  | hillClimbing policy => policy.allocate pool

/-- The outcome of a call and the pool after it. A call that fails leaves the pool as it was. -/
def apply {T : Type} [Quantity T] (allocator : Allocator) (pool : Pool T) :
    Except (AllocationError T) (Schedule T) × Pool T :=
  match allocator.allocate pool with
  | .ok run => (.ok run.schedule, run.pool)
  | .error e => (.error e, pool)

end Allocator

inductive Policy where
  | fcfs
  | sjf
  | edf
  | minMin
  | minMax
  | deadlineMinMin
  | roundRobin (quantum : Nat)
  | hillClimbing (initial : InitialAssignment)
  deriving DecidableEq

namespace Policy

def allocator : Policy → Allocator
  | fcfs => .list .fcfs
  | sjf => .list .sjf
  | edf => .list .edf
  | minMin => .batch .minMin
  | minMax => .batch .minMax
  | deadlineMinMin => .batch .deadlineMinMin
  | roundRobin quantum => .roundRobin quantum
  | hillClimbing initial => .hillClimbing ⟨initial, none⟩

def name (policy : Policy) : String := policy.allocator.name

end Policy
end JobAllocation
