import JobAllocation.Config.Basic
import JobAllocation.Toml.Document

/-!
# Run configurations in TOML

Unknown keys are ignored. An unsigned field takes an integer that is not negative, and a quantity
takes a float or an integer, which is rounded. A record may also be written as the array of its
fields in order, and a pair is always written so. Items beyond the last field are ignored.
-/
namespace JobAllocation

open Toml (Value)

namespace RunConfig

/-- The fields of a record, and whether they are named. -/
structure Fields where
  named : Bool
  values : List (Option Value)

/-- The fields of a record. A date has none of them. -/
def fields? (names : List String) : Value → Option Fields
  | .table entries => some ⟨true, names.map (entries.lookup ·)⟩
  | .dateTime _ => some ⟨true, names.map fun _ => none⟩
  | .array items => some ⟨false, names.zipIdx.map fun (_, i) => items[i]?⟩
  | _ => none

variable {α : Type}

/-- A field that has to be there. -/
def required (value? : Value → Option α) : Option Value → Option α
  | some v => value? v
  | none => none

/-- A field that a record with named fields may leave out. -/
def optional (value? : Value → Option α) (named : Bool) : Option Value → Option (Option α)
  | some v => (value? v).map some
  | none => if named then some none else none

/-- A field that any record may leave out. -/
def withDefault (fallback : α) (value? : Value → Option α) : Option Value → Option α
  | some v => value? v
  | none => some fallback

def nat? : Value → Option Nat
  | .integer (.ofNat n) => some n
  | _ => none

def quantity? : Value → Option Binary64
  | .float x => some x
  | .integer n => some (.ofDecimal ⟨n < 0, n.natAbs, 0⟩)
  | _ => none

def string? : Value → Option String
  | .string s => some s
  | _ => none

def list? (item? : Value → Option α) : Value → Option (List α)
  | .array items => items.mapM item?
  | _ => none

/-- The first two items of an array. -/
def pair? : Value → Option (Nat × Nat)
  | .array (a :: b :: _) => do return (← nat? a, ← nat? b)
  | _ => none

/-- A choice without data: its name, or the name alone with something empty. -/
def choice? : Value → Option String
  | .string name => some name
  | .table [(name, .table [])] => some name
  | .table [(name, .array [])] => some name
  | _ => none

def kindOfName? : String → Option PolicyKind
  | "fcfs" => some .fcfs
  | "sjf" => some .sjf
  | "edf" => some .edf
  | "min_min" => some .minMin
  | "min_max" => some .minMax
  | "deadline_min_min" => some .deadlineMinMin
  | "round_robin" => some .roundRobin
  | "hill_climbing" => some .hillClimbing
  | _ => none

def unit? (v : Value) : Option (UnitConfig Binary64) := do
  let ⟨named, [id, name, speed, ready]⟩ ←
      fields? ["id", "name", "speed_mips", "ready_time"] v
    | none
  return {
    id := ← required nat? id
    name := ← withDefault none (fun v => (string? v).map some) name
    speed := ← optional quantity? named speed
    ready := ← withDefault 0 quantity? ready }

def job? (v : Value) : Option (JobConfig Binary64) := do
  let ⟨named, [id, name, length, arrival, deadline]⟩ ←
      fields? ["id", "name", "length", "arrival_time", "deadline"] v
    | none
  return {
    id := ← required nat? id
    name := ← withDefault none (fun v => (string? v).map some) name
    length := ← required nat? length
    arrival := ← withDefault 0 quantity? arrival
    deadline := ← optional quantity? named deadline }

def policy? (v : Value) : Option PolicyConfig := do
  let ⟨named, [kind, quantum, seed, initial]⟩ ← fields? ["kind", "quantum", "seed", "initial"] v
    | none
  return {
    kind := ← required (fun v => choice? v >>= kindOfName?) kind
    quantum := ← optional nat? named quantum
    seed := ← optional nat? named seed
    initial := ← optional (list? pair?) named initial }

def seed? (v : Value) : Option (Option Nat) := do
  let ⟨named, [seed]⟩ ← fields? ["seed"] v | none
  optional nat? named seed

/-- The configuration that the root table of a document states. -/
def ofEntries? (entries : List (String × Value)) : Option (RunConfig Binary64) := do
  return {
    seed := ← withDefault none seed? (entries.lookup "workload")
    units := ← required (list? unit?) (entries.lookup "units")
    jobs := ← withDefault [] (list? job?) (entries.lookup "jobs")
    policy := ← required policy? (entries.lookup "policy") }

/-- The configuration that a text states. -/
def ofText (text : String) : Except ConfigError (RunConfig Binary64) :=
  match Toml.document? text >>= ofEntries? with
  | some config => .ok config
  | none => .error .malformed

/-- The configuration in a file, given its path and, if it exists, its bytes. -/
def ofFile (path : String) (bytes : Option ByteArray) : Except ConfigError (RunConfig Binary64) :=
  match bytes with
  | none => .error (.fileNotFound path)
  | some bytes =>
    match String.fromUTF8? bytes with
    | some text => ofText text
    | none => .error .notText

end RunConfig
end JobAllocation
