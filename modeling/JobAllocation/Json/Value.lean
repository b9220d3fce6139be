import JobAllocation.Decimal

/-!
# JSON values

A number is kept as written: a natural number of at most 64 bits, or any other numeral. The members
of an object keep their order, and no two of them have one name.
-/
namespace JobAllocation

inductive Json where
  | null
  | bool (value : Bool)
  | natural (value : Nat)
  | decimal (value : Decimal)
  | string (value : String)
  | array (items : List Json)
  | object (members : List (String × Json))

namespace Json

/-- The object of some members. Of several with one name the last one stays. -/
def ofMembers : List (String × Json) → List (String × Json)
  | [] => []
  | member :: rest =>
    if rest.any (·.1 == member.1) then ofMembers rest else member :: ofMembers rest

/-- The member of an object with a given name. -/
def member? (name : String) (members : List (String × Json)) : Option Json := members.lookup name

def ofOption {α : Type} (f : α → Json) : Option α → Json
  | none => null
  | some a => f a

def ofList {α : Type} (f : α → Json) (xs : List α) : Json := array (xs.map f)

end Json
end JobAllocation
