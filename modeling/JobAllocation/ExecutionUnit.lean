import JobAllocation.Quantity

/-!
# Execution units

A unit works through instructions at a fixed speed, one job at a time. The only thing about it that
changes is the time from which it is free.
-/
namespace JobAllocation

/-- The number by which a unit is known. -/
abbrev UnitId := Nat

structure ExecutionUnit (T : Type) where
  id : UnitId
  name : String
  /-- Instructions per unit of time. -/
  speed : T
  /-- The time from which it is free. -/
  ready : T
  deriving DecidableEq

namespace ExecutionUnit

variable {T : Type}

/-- Keeps the unit busy until `time`. It is never free earlier than it was. -/
def advanceTo [Quantity T] (unit : ExecutionUnit T) (time : T) : ExecutionUnit T :=
  if unit.ready < time then { unit with ready := time } else unit

end ExecutionUnit

/-- Keeps the unit with a given number busy until `time`. -/
def advanceUnit {T : Type} [Quantity T] (units : List (ExecutionUnit T)) (id : UnitId) (time : T) :
    List (ExecutionUnit T) :=
  units.map fun unit => if unit.id = id then unit.advanceTo time else unit

/-- The unit with a given number, the last one if several have it. -/
def findUnit? {T : Type} (units : List (ExecutionUnit T)) (id : UnitId) :
    Option (ExecutionUnit T) :=
  units.findRev? (·.id == id)

end JobAllocation
