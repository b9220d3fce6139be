import JobAllocation.Quantity

/-!
# Exact quantities

Rational arithmetic without rounding, with one further value for what never comes. Over it the
definitions of the library say what an allocation would be if no result were ever rounded.
-/
namespace JobAllocation

/-- A rational quantity, or one beyond every rational. -/
inductive Exact where
  | rational (value : Rat)
  | never
  deriving DecidableEq

namespace Exact

def add : Exact → Exact → Exact
  | rational x, rational y => rational (x + y)
  | _, _ => never

/-- Nothing meaningful is subtracted from or taken off what never comes. -/
def sub : Exact → Exact → Exact
  | rational x, rational y => rational (x - y)
  | never, _ => never
  | rational _, never => rational 0

def div : Exact → Exact → Exact
  | rational x, rational y => rational (x / y)
  | never, _ => never
  | rational _, never => rational 0

def le : Exact → Exact → Bool
  | rational x, rational y => x ≤ y
  | _, never => true
  | never, rational _ => false

def lt (x y : Exact) : Bool := !y.le x

instance : Zero Exact := ⟨rational 0⟩
instance : Add Exact := ⟨add⟩
instance : Sub Exact := ⟨sub⟩
instance : Div Exact := ⟨div⟩
instance : LE Exact := ⟨fun x y => x.le y = true⟩
instance : LT Exact := ⟨fun x y => x.lt y = true⟩
instance : DecidableLE Exact := fun x y => inferInstanceAs (Decidable (x.le y = true))
instance : DecidableLT Exact := fun x y => inferInstanceAs (Decidable (x.lt y = true))

theorem le_total (x y : Exact) : x.le y = true ∨ y.le x = true := by
  cases x <;> cases y <;> simp [le, Rat.le_total]

instance : Quantity Exact where
  infinity := never
  ofNat n := rational n
  isFinite
    | rational _ => true
    | never => false
  totalOrder x y := if x = y then .eq else if x < y then .lt else .gt
  decidableLE := inferInstance
  decidableLT := inferInstance
  lt_iff x y := by
    change (!y.le x) = true ↔ x.le y = true ∧ ¬ y.le x = true
    have := le_total x y
    cases h : y.le x <;> simp_all
  le_trans {x y z} := by
    change x.le y = true → y.le z = true → x.le z = true
    cases x <;> cases y <;> cases z <;> simp only [le, decide_eq_true_eq, implies_true,
      Bool.false_eq_true, false_implies]
    exact Rat.le_trans

end Exact
end JobAllocation
