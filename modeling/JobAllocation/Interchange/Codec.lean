import JobAllocation.Binary64.Decimal
import JobAllocation.Json.Value

/-!
# Reading values out of JSON

The rules that all interchanged types share. A record is an object with its fields by name, further
members being ignored, or an array of exactly its fields in order. A choice without data is its
name, one with data an object whose only member is the name with the data. An unsigned field takes a
natural number only. A quantity takes any number.
-/
namespace JobAllocation.Interchange

variable {α : Type}

def nat? : Json → Option Nat
  | .natural n => some n
  | _ => none

def bool? : Json → Option Bool
  | .bool b => some b
  | _ => none

def string? : Json → Option String
  | .string s => some s
  | _ => none

def quantity? : Json → Option Binary64
  | .natural n => some (.ofNat n)
  | .decimal d => some (.ofDecimal d)
  | _ => none

/-- A number with a numeral of its own. What is not finite has none. -/
def ofQuantity : Binary64 → Json
  | x@(.finite ..) => .decimal x.numeral
  | _ => .null

def list? (item? : Json → Option α) : Json → Option (List α)
  | .array items => items.mapM item?
  | _ => none

def pair? : Json → Option (Nat × Nat)
  | .array [.natural a, .natural b] => some (a, b)
  | _ => none

def ofPair (pair : Nat × Nat) : Json := .array [.natural pair.1, .natural pair.2]

/-- A value or null. -/
def nullable? (value? : Json → Option α) : Json → Option (Option α)
  | .null => some none
  | j => (value? j).map some

/-- The fields of a record, by name or by position. -/
def fields? (names : List String) : Json → Option (List (Option Json))
  | .object members => some (names.map (Json.member? · members))
  | .array items => if items.length = names.length then some (items.map some) else none
  | _ => none

/-- The fields of a record that has to be an object. -/
def members? (names : List String) : Json → Option (List (Option Json))
  | .object members => some (names.map (Json.member? · members))
  | _ => none

/-- A field that has to be there. -/
def required (value? : Json → Option α) : Option Json → Option α
  | some j => value? j
  | none => none

/-- A field that may be missing or null. -/
def optional (value? : Json → Option α) : Option Json → Option (Option α)
  | some j => nullable? value? j
  | none => some none

/-- The name of a choice, with its data if there is any. -/
def choice? : Json → Option (String × Option Json)
  | .string name => some (name, none)
  | .object [(name, data)] => some (name, some data)
  | _ => none

/-- The name of a choice that has no data. A null stands for none. -/
def plainChoice? (j : Json) : Option String :=
  match choice? j with
  | some (name, none) => some name
  | some (name, some .null) => some name
  | _ => none

/-- The natural number that a member's name writes, of at most 64 bits and without leading zeros. -/
def natKey? (name : String) : Option Nat :=
  match name.toList with
  | [] => none
  | ['0'] => some 0
  | '0' :: _ => none
  | digits =>
    let n := Decimal.natural digits
    if digits.all Decimal.isDigit && n < 2 ^ 64 then some n else none

end JobAllocation.Interchange
