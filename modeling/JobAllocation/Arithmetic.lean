/-!
# Arithmetic of numbers

A power is the power of the core library, and a list of numbers is summed from its zero, whether or
not an algebraic hierarchy with operations of its own is in scope where a definition is read.
-/
namespace JobAllocation

@[default_instance 20000]
instance (priority := high) instCorePowNat : Pow Nat Nat := ⟨Nat.pow⟩

@[default_instance 20000]
instance (priority := high) instCorePowInt : Pow Int Nat := ⟨Int.pow⟩

instance (priority := high) instCoreZeroNat : Zero Nat := ⟨0⟩

end JobAllocation
