import JobAllocation.Policy

/-!
# Run configurations

A configuration names units, jobs and a policy. A unit without a speed gets one drawn from the
seeded stream of the workload, in the order of units. A unit with a speed draws nothing, so it can
be added or removed without changing the speed of any other.
-/
namespace JobAllocation

/-- Why a configuration cannot be used. -/
inductive ConfigError where
  | fileNotFound (path : String)
  | notText
  | malformed
  | speedMissing (unit : UnitId)
  | quantumMissing
  | quantumNotPositive
  deriving DecidableEq

namespace ConfigError

/-- What is wrong, where the cause can be worded without the text that was read. -/
def message? : ConfigError → Option String
  | fileNotFound path => s!"failed to read {path}: No such file or directory (os error 2)"
  | notText => none
  | malformed => none
  | speedMissing unit =>
    s!"invalid configuration: unit {unit} has no speed_mips and [workload] seed is unset"
  | quantumMissing => "invalid configuration: round_robin requires a quantum"
  | quantumNotPositive => "invalid configuration: quantum must be positive"

end ConfigError

structure UnitConfig (T : Type) where
  id : UnitId
  name : Option String
  speed : Option T
  ready : T

structure JobConfig (T : Type) where
  id : JobId
  name : Option String
  length : Nat
  arrival : T
  deadline : Option T

inductive PolicyKind where
  | fcfs
  | sjf
  | edf
  | minMin
  | minMax
  | deadlineMinMin
  | roundRobin
  | hillClimbing
  deriving DecidableEq

structure PolicyConfig where
  kind : PolicyKind
  quantum : Option Nat
  seed : Option Nat
  initial : Option (List (JobId × UnitId))

structure RunConfig (T : Type) where
  /-- Where the speeds that are not stated are drawn from. -/
  seed : Option Nat
  units : List (UnitConfig T)
  jobs : List (JobConfig T)
  policy : PolicyConfig

/-- What a configuration stands for. -/
structure RunPlan (T : Type) where
  pool : Pool T
  policy : Policy

variable {T : Type}

/-- The job with all of its work to do. -/
def JobConfig.build (config : JobConfig T) : Job T where
  id := config.id
  name := config.name.getD ""
  length := config.length
  arrival := config.arrival
  deadline := config.deadline
  remaining := config.length

/-- The unit at a given speed. -/
def UnitConfig.withSpeed (config : UnitConfig T) (speed : T) : ExecutionUnit T where
  id := config.id
  name := config.name.getD ""
  speed := speed
  ready := config.ready

namespace PolicyConfig

/-- Where the search starts: from stated pairs, from a seed, or balanced. -/
def initialAssignment (config : PolicyConfig) : InitialAssignment :=
  match config.initial, config.seed with
  | some pairs, _ => .explicit (.ofPairs pairs)
  | none, some seed => .random seed
  | none, none => .leastLoaded

def build (config : PolicyConfig) : Except ConfigError Policy :=
  match config.kind with
  | .fcfs => .ok .fcfs
  | .sjf => .ok .sjf
  | .edf => .ok .edf
  | .minMin => .ok .minMin
  | .minMax => .ok .minMax
  | .deadlineMinMin => .ok .deadlineMinMin
  | .roundRobin =>
    match config.quantum with
    | none => .error .quantumMissing
    | some 0 => .error .quantumNotPositive
    | some quantum => .ok (.roundRobin quantum)
  | .hillClimbing => .ok (.hillClimbing config.initialAssignment)

end PolicyConfig

namespace RunConfig

/-- The slowest speed that is drawn, and how many there are. -/
def minDrawnSpeed : Nat := 100

def drawnSpeeds : Nat := 1501

/-- A speed from the stream of a generator. -/
def drawSpeed (g : Generator) : Nat × Generator :=
  let (n, g) := g.below drawnSpeeds
  (minDrawnSpeed + n, g)

/-- The units in order, with the generator from which the next speed is drawn, if there is one. -/
def buildUnits [Quantity T] : Option Generator → List (UnitConfig T) →
    Except ConfigError (List (ExecutionUnit T))
  | _, [] => .ok []
  | g, config :: rest =>
    match config.speed, g with
    | some speed, g => do return config.withSpeed speed :: (← buildUnits g rest)
    | none, some g => do
      let (speed, g) := drawSpeed g
      return config.withSpeed (Quantity.ofNat speed) :: (← buildUnits (some g) rest)
    | none, none => .error (.speedMissing config.id)

def build [Quantity T] (config : RunConfig T) : Except ConfigError (RunPlan T) := do
  let units ← buildUnits (config.seed.map .ofSeed) config.units
  let policy ← config.policy.build
  return { pool := { jobs := config.jobs.map JobConfig.build, units }, policy }

end RunConfig
end JobAllocation
