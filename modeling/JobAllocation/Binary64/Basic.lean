import JobAllocation.Quantity
import JobAllocation.Binary64.Rounding

/-!
# Binary64 arithmetic

A finite value is a sign and a magnitude counted in units of 2^-1074, so sums and comparisons are
those of integers and every operation is an exact result followed by one rounding. The sign of a
zero and the sign and payload of an undefined value are kept, because the total order tells them
apart. An undefined operand hands its payload on. Which sign an undefined result has is nowhere
laid down.

The definitions run: nothing here rests on floating-point hardware.
-/
namespace JobAllocation

namespace Binary64

/-- One, in units of 2^-1074. -/
@[irreducible] def one : Nat := 2 ^ 1074

/-- The first magnitude beyond the exponent range, in units of 2^-1074. -/
@[irreducible] def limit : Nat := 2 ^ 2098

/-- What tells undefined values of one sign apart: 52 bits that are not all zero. The highest of
them is set in the quiet ones. -/
@[ext]
structure Payload where
  bits : Nat
  fits : 0 < bits ∧ bits < 2 ^ 52
  deriving DecidableEq

namespace Payload

/-- The highest bit. -/
def quietBit : Nat := 2 ^ 51

/-- Quiet and nothing else. -/
def plain : Payload := ⟨quietBit, by decide⟩

/-- The same with the highest bit set. -/
def quieted (payload : Payload) : Payload where
  bits := if payload.bits < quietBit then payload.bits + quietBit else payload.bits
  fits := by
    have h := payload.fits
    unfold quietBit
    split <;> omega

end Payload
end Binary64

/-- A binary64 value. -/
inductive Binary64 where
  | finite (negative : Bool) (magnitude : Nat)
      (fits : Binary64.OnGrid magnitude ∧ magnitude < Binary64.limit)
  | infinite (negative : Bool)
  | undefined (negative : Bool) (payload : Binary64.Payload := .plain)
  deriving DecidableEq

namespace Binary64

theorem limit_pos : 0 < limit := by
  unfold limit
  exact Nat.two_pow_pos 2098

/-- Zero with a sign. -/
def zero (negative : Bool) : Binary64 := finite negative 0 ⟨onGrid_zero, limit_pos⟩

/-- The quotient `a / b` of unit counts, rounded. A quotient past the exponent range is infinite. -/
def ofRatio (negative : Bool) (a b : Nat) : Binary64 :=
  if h : roundRatio a b < limit then
    finite negative (roundRatio a b) ⟨roundRatio_onGrid a b, h⟩
  else
    infinite negative

def isUndefined : Binary64 → Bool
  | undefined .. => true
  | _ => false

def isFinite : Binary64 → Bool
  | finite .. => true
  | _ => false

/-- The value in units of 2^-1074, an infinity standing at the end of the exponent range. -/
def rank : Binary64 → Int
  | finite negative n _ => if negative then -(n : Int) else n
  | infinite negative => if negative then -(limit : Int) else limit
  | undefined .. => 0

/-- Numeric comparison. An undefined value compares with nothing. -/
def le (x y : Binary64) : Bool := !x.isUndefined && !y.isUndefined && x.rank ≤ y.rank

def lt (x y : Binary64) : Bool := !x.isUndefined && !y.isUndefined && x.rank < y.rank

/-- The place in the total order: undefined values lie outside the infinities on the side of their
sign, the further out the larger the payload, and negative zero lies below zero. -/
def place : Binary64 → Int
  | finite negative n _ => if negative then -(n : Int) - 1 else n
  | infinite negative => if negative then -(limit : Int) - 1 else limit
  | undefined negative payload =>
    if negative then -(limit : Int) - 1 - payload.bits else limit + payload.bits

def neg : Binary64 → Binary64
  | finite negative n h => finite (!negative) n h
  | infinite negative => infinite (!negative)
  | undefined negative payload => undefined (!negative) payload

/-- The sum, rounded. A sum of zero is positive unless both terms are negative. An undefined term is
passed on, quiet. -/
def add : Binary64 → Binary64 → Binary64
  | undefined s payload, _ => undefined s payload.quieted
  | _, undefined s payload => undefined s payload.quieted
  | infinite s, infinite t => if s = t then infinite s else undefined false
  | infinite s, _ => infinite s
  | _, infinite s => infinite s
  | x@(finite s _ _), y@(finite t _ _) =>
    let exact := x.rank + y.rank
    if exact = 0 then zero (s && t) else ofRatio (exact < 0) exact.natAbs 1

def sub (x y : Binary64) : Binary64 := x.add y.neg

/-- The quotient, rounded. A quotient by zero is infinite, except that zero by zero is undefined. An
undefined operand is passed on, quiet. -/
def div : Binary64 → Binary64 → Binary64
  | undefined s payload, _ => undefined s payload.quieted
  | _, undefined s payload => undefined s payload.quieted
  | infinite _, infinite _ => undefined false
  | infinite s, finite t _ _ => infinite (s != t)
  | finite s _ _, infinite t => zero (s != t)
  | finite s a _, finite t b _ =>
    if b = 0 then
      if a = 0 then undefined false else infinite (s != t)
    else
      ofRatio (s != t) (a * one) b

def ofNat (n : Nat) : Binary64 := ofRatio false (n * one) 1

instance : Zero Binary64 := ⟨zero false⟩
instance : Add Binary64 := ⟨add⟩
instance : Sub Binary64 := ⟨sub⟩
instance : Div Binary64 := ⟨div⟩
instance : LE Binary64 := ⟨fun x y => x.le y = true⟩
instance : LT Binary64 := ⟨fun x y => x.lt y = true⟩
instance : DecidableLE Binary64 := fun x y => inferInstanceAs (Decidable (x.le y = true))
instance : DecidableLT Binary64 := fun x y => inferInstanceAs (Decidable (x.lt y = true))
instance : Inhabited Binary64 := ⟨0⟩

theorem le_iff {x y : Binary64} :
    x ≤ y ↔ x.isUndefined = false ∧ y.isUndefined = false ∧ x.rank ≤ y.rank := by
  change x.le y = true ↔ _
  simp [le, and_assoc]

theorem lt_iff {x y : Binary64} :
    x < y ↔ x.isUndefined = false ∧ y.isUndefined = false ∧ x.rank < y.rank := by
  change x.lt y = true ↔ _
  simp [lt, and_assoc]

instance : Quantity Binary64 where
  infinity := infinite false
  ofNat := ofNat
  isFinite := isFinite
  totalOrder x y := compare x.place y.place
  decidableLE := inferInstance
  decidableLT := inferInstance
  lt_iff x y := by
    rw [lt_iff, le_iff, le_iff]
    constructor
    · rintro ⟨hx, hy, h⟩
      exact ⟨⟨hx, hy, by omega⟩, fun ⟨_, _, h'⟩ => by omega⟩
    · rintro ⟨⟨hx, hy, _⟩, h⟩
      exact ⟨hx, hy, Int.not_le.mp fun h' => h ⟨hy, hx, h'⟩⟩
  le_trans {x y z} := by
    rw [le_iff, le_iff, le_iff]
    rintro ⟨hx, _, hxy⟩ ⟨_, hz, hyz⟩
    exact ⟨hx, hz, by omega⟩

end Binary64
end JobAllocation
