import JobAllocation.Interchange.Model
import JobAllocation.Policy

/-!
# Policies as JSON

A policy is an object that carries its kind beside its parameters. As an array, its kind comes
first. Its parameters are read more freely than values that stand alone: any record may be an array,
and an empty object stands for no data.
-/
namespace JobAllocation

open Interchange

namespace BatchHeuristic

def ofName? : String → Option BatchHeuristic
  | "MinMin" => some minMin
  | "MinMax" => some minMax
  | "DeadlineMinMin" => some deadlineMinMin
  | _ => none

def toJson (heuristic : BatchHeuristic) : Json := .string heuristic.name

def ofJson? (j : Json) : Option BatchHeuristic := plainChoice? j >>= ofName?

end BatchHeuristic

namespace InitialAssignment

def toJson : InitialAssignment → Json
  | explicit a => .object [("explicit", a.toJson)]
  | random seed => .object [("random", .object [("seed", .natural seed)])]
  | leastLoaded => .string "least_loaded"

def ofJson? (j : Json) : Option InitialAssignment :=
  match choice? j with
  | some ("explicit", some data) => (Assignment.ofJson? data).map explicit
  | some ("random", some data) => do
    let [seed] ← members? ["seed"] data | none
    return random (← required nat? seed)
  | some ("least_loaded", none) => some leastLoaded
  | some ("least_loaded", some .null) => some leastLoaded
  | _ => none

end InitialAssignment

namespace Policy

/-- Where a search starts, as a parameter. -/
def start? (j : Json) : Option InitialAssignment :=
  match choice? j with
  | some ("random", some (.array [seed])) => (nat? seed).map .random
  | some ("least_loaded", some (.object [])) => some .leastLoaded
  | _ => InitialAssignment.ofJson? j

def toJson : Policy → Json
  | fcfs => .object [("kind", .string "fcfs")]
  | sjf => .object [("kind", .string "sjf")]
  | edf => .object [("kind", .string "edf")]
  | minMin => .object [("kind", .string "min_min")]
  | minMax => .object [("kind", .string "min_max")]
  | deadlineMinMin => .object [("kind", .string "deadline_min_min")]
  | roundRobin quantum => .object [("kind", .string "round_robin"), ("quantum", .natural quantum)]
  | hillClimbing initial => .object [("kind", .string "hill_climbing"), ("initial", initial.toJson)]

/-- The policy of a kind with its parameters. -/
def ofKind? (kind : String) (parameters : Json) : Option Policy :=
  match kind with
  | "fcfs" => plain fcfs
  | "sjf" => plain sjf
  | "edf" => plain edf
  | "min_min" => plain minMin
  | "min_max" => plain minMax
  | "deadline_min_min" => plain deadlineMinMin
  | "round_robin" => do
    let [quantum] ← fields? ["quantum"] parameters | none
    return roundRobin (← required nat? quantum)
  | "hill_climbing" => do
    let [initial] ← fields? ["initial"] parameters | none
    return hillClimbing (← required start? initial)
  | _ => none
where
  plain (policy : Policy) : Option Policy := (fields? [] parameters).map fun _ => policy

def ofJson? : Json → Option Policy
  | .object members => do
    let kind ← required string? (Json.member? "kind" members)
    ofKind? kind (.object members)
  | .array (kind :: parameters) => do
    let kind ← string? kind
    ofKind? kind (.array parameters)
  | _ => none

end Policy
end JobAllocation
